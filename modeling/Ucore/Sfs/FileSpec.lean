import Ucore.Sfs.FileIo
import Ucore.Lib.Splice

/-!
# A file as an array of bytes

The bytes of a file are found by going through its block map (`SfsFs.fileByte`). `FileOk` is the
state in which reading and writing them makes sense. One piece of a transfer — one block, or a part
of it — moves exactly the bytes it names; a transfer without whole blocks is at most two pieces, and
on it `sfs_io_nolock` is `Splice.read` and `Splice.write`. A transfer with a whole block is not: the
device block whose number is the logical block number is transferred instead.
-/

namespace Ucore

open Bytes Prog

namespace SfsFs

/-- Byte `i` of the file with on-disk inode `din`. -/
def fileByte (s : SfsFs) (din : SfsDiskInode) (i : ℕ) : UInt8 :=
  s.dev.blk (s.bmap din (i / 4096)) (i % 4096)

/-- The bytes of the file. -/
def contents (s : SfsFs) (din : SfsDiskInode) : List UInt8 :=
  (List.range din.size).map (s.fileByte din)

/-- The number of blocks that `n` bytes occupy, `ROUNDUP_DIV(n, SFS_BLKSIZE)`. -/
def blocksFor (n : ℕ) : ℕ := (n + 4095) / 4096

/-- The number of device blocks it takes to bring an inode to `n` blocks. -/
def growCost (din : SfsDiskInode) (n : ℕ) : ℕ :=
  n - din.blocks + if 12 < n ∧ din.indirect = 0 then 1 else 0

/-- Inode `k` is in memory as `sin` and its block map is in order, on a device that works and with a
freemap that marks free only blocks of the file system. -/
structure FileOk (s : SfsFs) (k : ℕ) (sin : SfsInode) : Prop where
  ok : s.Ok
  tail : s.TailClear
  cached : s.inodes k = some sin
  mapped : s.Mapped sin.din

section FileByte

variable {s s' : SfsFs} {k b : ℕ} {sin sin' : SfsInode}

@[simp] theorem length_contents (s : SfsFs) (din : SfsDiskInode) :
    (s.contents din).length = din.size := by
  simp [contents]

theorem getElem?_contents (s : SfsFs) (din : SfsDiskInode) (i : ℕ) :
    (s.contents din)[i]? = if i < din.size then some (s.fileByte din i) else none := by
  rw [contents, List.getElem?_map]
  by_cases hi : i < din.size
  · rw [List.getElem?_range hi, if_pos hi, Option.map_some]
  · rw [List.getElem?_eq_none (by simpa using hi), if_neg hi, Option.map_none]

/-- Storing to one data block of a file changes the bytes of that block. -/
theorem fileByte_setBlk {din : SfsDiskInode} (hm : s.Mapped din) {i j : ℕ}
    (hi : i / 4096 < din.blocks) (hj : j < din.blocks) (c : Bytes) :
    (s.setBlk (s.bmap din j) c).fileByte din i
      = if i / 4096 = j then c (i % 4096) else s.fileByte din i := by
  have hmap : (s.setBlk (s.bmap din j) c).bmap din (i / 4096) = s.bmap din (i / 4096) :=
    bmap_congr rfl rfl fun _ ↦ s.setBlk_blk_of_ne _ c (hm.ne_indirect j hj).symm
  rw [fileByte, hmap]
  by_cases hij : i / 4096 = j
  · rw [hij, setBlk_blk_self, if_pos rfl]
  · rw [s.setBlk_blk_of_ne _ c fun hc ↦ hij (hm.inj _ hi j hj hc), if_neg hij, fileByte]

/-- An append adds a block of zeros. -/
theorem Appended.fileByte (h : s.Appended k sin b s' sin') (hm : s.Mapped sin.din) {i : ℕ}
    (hi : i / 4096 < sin'.din.blocks) :
    s'.fileByte sin'.din i = if i / 4096 < sin.din.blocks then s.fileByte sin.din i else 0 := by
  rw [h.blocks] at hi
  rw [SfsFs.fileByte]
  by_cases hlt : i / 4096 < sin.din.blocks
  · have hmap := h.bmap_of_ne (i / 4096) hlt.ne
    have hne : s.bmap sin.din (i / 4096) ≠ b := (hm.used _ hlt).ne_of_isFree h.taken.1
    have hind : s.bmap sin.din (i / 4096) ≠ sin'.din.indirect := by
      have := (h.mapped hm).ne_indirect (i / 4096) (by rw [h.blocks]; omega)
      rwa [hmap] at this
    rw [hmap, h.blk _ hne (Or.inl hind), if_pos hlt, SfsFs.fileByte]
  · have hlast : i / 4096 = sin.din.blocks := by omega
    rw [hlast, h.bmap_last, h.cleared _ (Nat.mod_lt _ (by omega)), if_neg (lt_irrefl _)]

theorem Appended.growCost (h : s.Appended k sin b s' sin') {n : ℕ} (hn : sin'.din.blocks ≤ n) :
    s'.freemap.freeCount + SfsFs.growCost sin.din n
      = s.freemap.freeCount + SfsFs.growCost sin'.din n := by
  have hblocks := h.blocks
  rw [SfsFs.growCost, SfsFs.growCost]
  rcases h.indirect with ⟨hind, hcount⟩ | ⟨hzero, h12, -, -, hnz, -, hcount⟩
  · rw [hind]
    omega
  · rw [if_pos ⟨by omega, hzero⟩, if_neg fun hc ↦ hnz hc.2]
    omega

theorem appendCost_le_growCost {din : SfsDiskInode} :
    appendCost din ≤ growCost din (din.blocks + 1) := by
  rw [appendCost, growCost]
  split_ifs <;> omega

theorem FileOk.appended (h : s.FileOk k sin) (ha : s.Appended k sin b s' sin') :
    s'.FileOk k sin' where
  ok := ha.ok
  tail := ha.tail h.tail
  cached := ha.cached
  mapped := ha.mapped h.mapped

theorem FileOk.store (h : s.FileOk k sin) {j : ℕ} (hj : j < sin.din.blocks) (c : Bytes) :
    (s.setBlk (s.bmap sin.din j) c).FileOk k sin where
  ok := h.ok.setBlk _ _
  tail := h.tail
  cached := h.cached
  mapped := h.mapped.setBlk (h.mapped.ne_indirect j hj) c

end FileByte

/-- `s'` is `s` after bytes of inode `k` were written without changing its size, growing the inode
from `sin` to `sin'` as needed: the bytes of `buf` from `base` on went to `[start, start + len)`. -/
structure Stored (s : SfsFs) (k : ℕ) (sin : SfsInode) (buf : Bytes) (base start len : ℕ)
    (s' : SfsFs) (sin' : SfsInode) : Prop where
  fileOk : s'.FileOk k sin'
  blocks : sin'.din.blocks = max sin.din.blocks (blocksFor (start + len))
  size : sin'.din.size = sin.din.size
  type : sin'.din.type = sin.din.type
  growCost : ∀ n, sin'.din.blocks ≤ n →
    s'.freemap.freeCount + SfsFs.growCost sin.din n
      = s.freemap.freeCount + SfsFs.growCost sin'.din n
  byte : ∀ i < 4096 * sin'.din.blocks, s'.fileByte sin'.din i
    = if start ≤ i ∧ i < start + len then buf (base + (i - start))
      else if i < 4096 * sin.din.blocks then s.fileByte sin.din i else 0

end SfsFs

/-! ## One piece -/

section Piece

variable {s : SfsFs} {k : ℕ} {sin : SfsInode}

/-- Writing one piece of a mapped block. -/
theorem sfsIoPiece_write_mapped (h : s.FileOk k sin) (buf : Bytes) (base : ℕ) {j off len : ℕ}
    (hj : j < sin.din.blocks) (hlen : 0 < len) (hoff : off + len ≤ 4096) :
    ∃ t, (sfsIoPiece k buf base len j off true).run s = .ok buf t ∧
      s.Stored k sin buf base (4096 * j + off) len t sin := by
  have hused := h.mapped.used j hj
  refine ⟨s.setBlk (s.bmap sin.din j) (memcpy (s.dev.blk (s.bmap sin.din j)) off buf base len),
    ?_, h.store hj _, ?_, rfl, rfl, fun n _ ↦ rfl, fun i hi ↦ ?_⟩
  · rw [sfsIoPiece, bind_of_ok (sfsBmapLoadNolock_lookup h.ok h.cached h.mapped hj), sfsBufOp,
      if_pos rfl, sfsWbuf_eq h.ok.toDevOk hused.1 hused.2.1 _ _ (by omega) hoff]
  · rw [SfsFs.blocksFor]
    omega
  · rw [SfsFs.fileByte_setBlk h.mapped (by omega) hj]
    by_cases hij : i / 4096 = j
    · by_cases hin : 4096 * j + off ≤ i ∧ i < 4096 * j + off + len
      · rw [if_pos hij, if_pos hin, memcpy_of_mem (by omega) (by omega)]
        congr 2
        omega
      · rw [if_pos hij, if_neg hin, memcpy_of_notMem (by omega), if_pos hi, SfsFs.fileByte, hij]
    · rw [if_neg hij, if_neg (by omega), if_pos hi]

/-- Writing one piece of the block just beyond the last one, when there is room for it. -/
theorem sfsIoPiece_write_append (h : s.FileOk k sin) (buf : Bytes) (base : ℕ) {off len : ℕ}
    (hlt : sin.din.blocks < 1036) (hlen : 0 < len) (hoff : off + len ≤ 4096)
    (hroom : SfsFs.growCost sin.din (sin.din.blocks + 1) ≤ s.freemap.freeCount) :
    ∃ t sin', (sfsIoPiece k buf base len sin.din.blocks off true).run s = .ok buf t ∧
      s.Stored k sin buf base (4096 * sin.din.blocks + off) len t sin' := by
  have hcost : appendCost sin.din ≤ _ := SfsFs.appendCost_le_growCost
  rcases sfsBmapLoadNolock_append h.ok h.cached h.mapped h.tail.zero hlt with
    ⟨b, s', sin', happ, hload⟩ | ⟨s', -, hfull, -⟩ | ⟨htail, -⟩
  · have hok := h.appended happ
    have hj : sin.din.blocks < sin'.din.blocks := by
      have := happ.blocks
      omega
    have hused := hok.mapped.used _ hj
    rw [happ.bmap_last] at hused
    refine ⟨s'.setBlk b (memcpy (s'.dev.blk b) off buf base len), sin', ?_, ?_, ?_, happ.attrs.1,
      happ.attrs.2.1, fun n hn ↦ happ.growCost hn, fun i hi ↦ ?_⟩
    · rw [sfsIoPiece, bind_of_ok hload, sfsBufOp, if_pos rfl,
        sfsWbuf_eq hok.ok.toDevOk hused.1 hused.2.1 _ _ (by omega) hoff]
    · have := hok.store hj (memcpy (s'.dev.blk b) off buf base len)
      rwa [happ.bmap_last] at this
    · rw [happ.blocks, SfsFs.blocksFor]
      omega
    · have hbyte := SfsFs.fileByte_setBlk hok.mapped (i := i) (by omega) hj
        (memcpy (s'.dev.blk b) off buf base len)
      have hold := happ.fileByte h.mapped (i := i) (by omega)
      rw [happ.bmap_last] at hbyte
      rw [hbyte]
      by_cases hij : i / 4096 = sin.din.blocks
      · have hzero : s'.dev.blk b (i % 4096) = 0 := happ.cleared _ (Nat.mod_lt _ (by omega))
        by_cases hin : 4096 * sin.din.blocks + off ≤ i ∧ i < 4096 * sin.din.blocks + off + len
        · rw [if_pos hij, if_pos hin, memcpy_of_mem (by omega) (by omega)]
          congr 2
          omega
        · rw [if_pos hij, if_neg hin, memcpy_of_notMem (by omega), hzero, if_neg (by omega)]
      · rw [if_neg hij, hold, if_neg (by omega : ¬(_ ∧ _))]
        by_cases hlt' : i / 4096 < sin.din.blocks
        · rw [if_pos hlt', if_pos (by omega)]
        · rw [if_neg hlt', if_neg (by omega)]
  · omega
  · exact absurd h.tail htail

/-- Writing one piece of a block up to and including the one just beyond the last. -/
theorem sfsIoPiece_write (h : s.FileOk k sin) (buf : Bytes) (base : ℕ) {j off len : ℕ}
    (hj : j ≤ sin.din.blocks) (hlt : j < 1036) (hlen : 0 < len) (hoff : off + len ≤ 4096)
    (hroom : SfsFs.growCost sin.din (j + 1) ≤ s.freemap.freeCount) :
    ∃ t sin', (sfsIoPiece k buf base len j off true).run s = .ok buf t ∧
      s.Stored k sin buf base (4096 * j + off) len t sin' := by
  rcases hj.lt_or_eq with hj | rfl
  · obtain ⟨t, hrun, hst⟩ := sfsIoPiece_write_mapped h buf base hj hlen hoff
    exact ⟨t, sin, hrun, hst⟩
  · exact sfsIoPiece_write_append h buf base hlt hlen hoff hroom

/-- Reading one piece of a mapped block. -/
theorem sfsIoPiece_read (h : s.FileOk k sin) (buf : Bytes) (base : ℕ) {j off len : ℕ}
    (hj : j < sin.din.blocks) (hlen : 0 < len) (hoff : off + len ≤ 4096) :
    (sfsIoPiece k buf base len j off false).run s
      = .ok (memcpy buf base (s.fileByte sin.din) (4096 * j + off) len) s := by
  have hused := h.mapped.used j hj
  rw [sfsIoPiece, bind_of_ok (sfsBmapLoadNolock_lookup h.ok h.cached h.mapped hj), sfsBufOp,
    if_neg (by simp), sfsRbuf_eq h.ok.toDevOk hused.1 hused.2.1 _ _ (by omega) hoff]
  congr 1
  funext i
  by_cases hi : base ≤ i ∧ i < base + len
  · rw [memcpy_of_mem hi.1 hi.2, memcpy_of_mem hi.1 hi.2, SfsFs.fileByte]
    congr 2 <;> omega
  · rw [memcpy_of_notMem (by omega), memcpy_of_notMem (by omega)]

end Piece

/-! ## One transfer -/

section Transfer

variable {s t u : SfsFs} {k : ℕ} {sin sin₁ sin₂ : SfsInode}

theorem SfsFs.growCost_mono (din : SfsDiskInode) {m n : ℕ} (h : m ≤ n) :
    SfsFs.growCost din m ≤ SfsFs.growCost din n := by
  rw [SfsFs.growCost, SfsFs.growCost]
  split_ifs <;> omega

theorem SfsFs.growCost_of_le {din : SfsDiskInode} (hm : s.Mapped din) {n : ℕ} (h : n ≤ din.blocks) :
    SfsFs.growCost din n = 0 := by
  rw [SfsFs.growCost, if_neg fun hc ↦ hm.indirect_ne_zero (by omega) hc.2]
  omega

theorem SfsFs.growCost_max {din : SfsDiskInode} (hm : s.Mapped din) (n : ℕ) :
    SfsFs.growCost din (max n din.blocks) = SfsFs.growCost din n := by
  rcases le_total n din.blocks with h | h
  · rw [SfsFs.growCost_of_le hm h, max_eq_right h, SfsFs.growCost_of_le hm (le_refl _)]
  · rw [max_eq_left h]

/-- What is enough for the whole transfer is enough after a part of it. -/
theorem SfsFs.Stored.room {buf : Bytes} {base start len n : ℕ}
    (h : s.Stored k sin buf base start len t sin₁) (hm : s.Mapped sin.din)
    (hn : SfsFs.blocksFor (start + len) ≤ n)
    (hroom : SfsFs.growCost sin.din n ≤ s.freemap.freeCount) :
    SfsFs.growCost sin₁.din n ≤ t.freemap.freeCount := by
  have hblocks := h.blocks
  have hcost := h.growCost (max n sin.din.blocks) (by omega)
  have hmono := SfsFs.growCost_mono sin₁.din (le_max_left n sin.din.blocks)
  rw [SfsFs.growCost_max hm] at hcost
  omega

theorem SfsFs.Stored.trans {buf : Bytes} {base start len len' : ℕ}
    (h : s.Stored k sin buf base start len t sin₁)
    (h' : t.Stored k sin₁ buf (base + len) (start + len) len' u sin₂) :
    s.Stored k sin buf base start (len + len') u sin₂ where
  fileOk := h'.fileOk
  blocks := by
    rw [h'.blocks, h.blocks, SfsFs.blocksFor, SfsFs.blocksFor, SfsFs.blocksFor]
    omega
  size := h'.size.trans h.size
  type := h'.type.trans h.type
  growCost n hn := by
    have hle : sin₁.din.blocks ≤ sin₂.din.blocks := h'.blocks ▸ le_max_left _ _
    have h₁ := h.growCost n (hle.trans hn)
    have h₂ := h'.growCost n hn
    omega
  byte i hi := by
    rw [h'.byte i hi]
    by_cases hin' : start + len ≤ i ∧ i < start + len + len'
    · rw [if_pos hin', if_pos (by omega)]
      congr 1
      omega
    · rw [if_neg hin']
      by_cases hlt : i < 4096 * sin₁.din.blocks
      · rw [if_pos hlt, h.byte i hlt]
        by_cases hin : start ≤ i ∧ i < start + len
        · rw [if_pos hin, if_pos (by omega)]
        · rw [if_neg hin, if_neg (by omega : ¬(start ≤ i ∧ i < start + (len + len')))]
      · have hb := h.blocks
        rw [SfsFs.blocksFor] at hb
        rw [if_neg hlt, if_neg (by omega : ¬(start ≤ i ∧ i < start + (len + len'))),
          if_neg (by omega)]

/-- Writing a span without whole blocks stores exactly its bytes. -/
theorem sfsIoHead_write (h : s.FileOk k sin) (buf : Bytes) {offset endpos : ℕ}
    (hno : NoWholeBlock offset endpos) (hlt : offset < endpos) (hend : endpos ≤ 4096 * 1036)
    (hoff : offset / 4096 ≤ sin.din.blocks)
    (hroom : SfsFs.growCost sin.din (SfsFs.blocksFor endpos) ≤ s.freemap.freeCount) :
    ∃ t sin', (sfsIoHead k buf offset endpos true).run s
        = .ok ⟨none, endpos - offset, buf⟩ t ∧
      s.Stored k sin buf 0 offset (endpos - offset) t sin' := by
  have hstart : 4096 * (offset / 4096) + offset % 4096 = offset := Nat.div_add_mod offset 4096
  -- one piece, or two in neighbouring blocks
  rcases le_or_gt endpos (blockEnd offset) with hle | hgt
  · rw [blockEnd] at hle
    have hone : SfsFs.growCost sin.din (offset / 4096 + 1) ≤ s.freemap.freeCount :=
      (SfsFs.growCost_mono _ (by rw [SfsFs.blocksFor]; omega)).trans hroom
    have hfit : offset % 4096 + (endpos - offset) ≤ 4096 := by omega
    obtain ⟨t, sin', hrun, hst⟩ := sfsIoPiece_write h buf 0 hoff (by omega) (by omega) hfit hone
    refine ⟨t, sin', ?_, ?_⟩
    · rw [sfsIoHead_one hlt hle hno, hrun, onePiece]
    · rwa [hstart] at hst
  · rw [blockEnd] at hgt
    have hno' := hno
    rw [NoWholeBlock] at hno'
    have hone : SfsFs.growCost sin.din (offset / 4096 + 1) ≤ s.freemap.freeCount :=
      (SfsFs.growCost_mono _ (by rw [SfsFs.blocksFor]; omega)).trans hroom
    have hfit : offset % 4096 + (blockEnd offset - offset) ≤ 4096 := by
      rw [blockEnd]
      omega
    have hpos : 0 < blockEnd offset - offset := by
      rw [blockEnd]
      omega
    obtain ⟨t, sin₁, hrun, hst⟩ := sfsIoPiece_write h buf 0 hoff (by omega) hpos hfit hone
    rw [hstart] at hst
    have hsum : offset + (blockEnd offset - offset) = 4096 * (offset / 4096 + 1) := by
      rw [blockEnd]
      omega
    -- the first piece has taken what it needed out of the same account
    have hroom' := hst.room h.mapped (n := SfsFs.blocksFor endpos)
      (by rw [hsum, SfsFs.blocksFor, SfsFs.blocksFor]; omega) hroom
    have hblocks := hst.blocks
    rw [hsum, SfsFs.blocksFor] at hblocks
    have hfit' : 0 + (endpos - blockEnd offset) ≤ 4096 := by
      rw [blockEnd]
      omega
    have hpos' : 0 < endpos - blockEnd offset := by
      rw [blockEnd]
      omega
    have hnext : offset / 4096 + 1 ≤ sin₁.din.blocks := by omega
    obtain ⟨u, sin₂, hrun', hst'⟩ := sfsIoPiece_write hst.fileOk buf
      (0 + (blockEnd offset - offset)) hnext (by omega) hpos' hfit'
      ((SfsFs.growCost_mono _ (by rw [SfsFs.blocksFor]; omega)).trans hroom')
    have hlen : blockEnd offset - offset + (endpos - blockEnd offset) = endpos - offset := by
      rw [blockEnd]
      omega
    refine ⟨u, sin₂, ?_, ?_⟩
    · rw [Nat.zero_add] at hrun'
      rw [sfsIoHead_two hgt hno, hrun, twoPieces]
      rw [hrun', hlen]
    · rw [Nat.add_zero, ← hsum] at hst'
      have := hst.trans hst'
      rwa [hlen] at this

/-- Reading a span without whole blocks of mapped bytes copies exactly them. -/
theorem sfsIoHead_read (h : s.FileOk k sin) (buf : Bytes) {offset endpos : ℕ}
    (hno : NoWholeBlock offset endpos) (hlt : offset < endpos)
    (hend : endpos ≤ 4096 * sin.din.blocks) :
    (sfsIoHead k buf offset endpos false).run s
      = .ok ⟨none, endpos - offset,
          memcpy buf 0 (s.fileByte sin.din) offset (endpos - offset)⟩ s := by
  have hstart : 4096 * (offset / 4096) + offset % 4096 = offset := Nat.div_add_mod offset 4096
  rcases le_or_gt endpos (blockEnd offset) with hle | hgt
  · rw [blockEnd] at hle
    have hfit : offset % 4096 + (endpos - offset) ≤ 4096 := by omega
    have hblk : offset / 4096 < sin.din.blocks := by omega
    have hrun := sfsIoPiece_read h buf 0 hblk (by omega) hfit
    rw [hstart] at hrun
    rw [sfsIoHead_one hlt hle hno, hrun, onePiece]
  · have hno' := hno
    rw [NoWholeBlock] at hno'
    have hblockEnd : blockEnd offset = 4096 * (offset / 4096 + 1) := rfl
    have hfit : offset % 4096 + (blockEnd offset - offset) ≤ 4096 := by omega
    have hblk : offset / 4096 < sin.din.blocks := by omega
    have hrun := sfsIoPiece_read h buf 0 hblk (by omega) hfit
    rw [hstart] at hrun
    have hfit' : 0 + (endpos - blockEnd offset) ≤ 4096 := by omega
    have hblk' : offset / 4096 + 1 < sin.din.blocks := by omega
    have hrun' := sfsIoPiece_read h
      (memcpy buf 0 (s.fileByte sin.din) offset (blockEnd offset - offset))
      (blockEnd offset - offset) hblk' (by omega) hfit'
    have hsum : 4096 * (offset / 4096 + 1) + 0 = offset + (blockEnd offset - offset) := by omega
    have hlen : blockEnd offset - offset + (endpos - blockEnd offset) = endpos - offset := by omega
    have hcopy := memcpy_memcpy_append buf (s.fileByte sin.din) 0 offset (blockEnd offset - offset)
      (endpos - blockEnd offset)
    rw [Nat.zero_add, hlen] at hcopy
    rw [sfsIoHead_two hgt hno, hrun, twoPieces]
    rw [hrun', hsum, hlen, hcopy]

/-- `endpos` as `sfs_io_nolock` computes it, before clipping at the end of the file. -/
def ioEnd (offset : ℤ) (len : ℕ) : ℕ := min (toOff (offset + len)).toNat sfsMaxFileSize

/-- What a read of a file with bytes `f` and `size` of them hands back. -/
def readResult (f : ℕ → UInt8) (size : ℕ) (buf : Bytes) (offset : ℤ) (len : ℕ) : IoResult :=
  if offset < 0 ∨ (sfsMaxFileSize : ℤ) ≤ offset ∨ toOff (offset + len) < offset then
    ⟨some .inval, 0, buf⟩
  else
    ⟨none, min (ioEnd offset len) size - offset.toNat,
      memcpy buf 0 f offset.toNat (min (ioEnd offset len) size - offset.toNat)⟩

theorem readResult_of_lt {f : ℕ → UInt8} {size offset len : ℕ} {buf : Bytes}
    (h : offset + len < 134217728) :
    readResult f size buf offset len
      = ⟨none, min (ioEnd offset len) size - offset,
          memcpy buf 0 f offset (min (ioEnd offset len) size - offset)⟩ := by
  have hoff : toOff (offset + len) = ((offset + len : ℕ) : ℤ) := by
    rw [← Nat.cast_add]
    exact toOff_of_lt (by omega)
  rw [readResult, hoff, sfsMaxFileSize_eq, if_neg (by omega), Int.toNat_natCast]

/-- The result depends on the bytes of the file only. -/
theorem readResult_congr {f g : ℕ → UInt8} {size : ℕ} (h : ∀ i < size, f i = g i) (buf : Bytes)
    (offset : ℤ) (len : ℕ) :
    readResult f size buf offset len = readResult g size buf offset len := by
  rw [readResult, readResult]
  split
  · rfl
  · congr 1
    funext i
    by_cases hi : 0 ≤ i ∧ i < 0 + (min (ioEnd offset len) size - offset.toNat)
    · rw [memcpy_of_mem hi.1 hi.2, memcpy_of_mem hi.1 hi.2, h _ (by omega)]
    · rw [memcpy_of_notMem (by omega), memcpy_of_notMem (by omega)]

/-- A read that contains no whole block copies out the bytes of the file and changes nothing. -/
theorem sfsIoNolock_read_eq (h : s.FileOk k sin) (htype : sin.din.type ≠ sfsTypeDir)
    (hblocks : SfsFs.blocksFor sin.din.size ≤ sin.din.blocks) (buf : Bytes) {offset : ℤ} {len : ℕ}
    (hno : NoWholeBlock offset.toNat (min (ioEnd offset len) sin.din.size)) :
    (sfsIoNolock k buf offset len false).run s
      = .ok (readResult (s.fileByte sin.din) sin.din.size buf offset len) s := by
  rw [sfsIoNolock, bind_of_ok (getSin_eq h.cached), assert_bind_run htype, readResult]
  by_cases hbad : offset < 0 ∨ (sfsMaxFileSize : ℤ) ≤ offset ∨ toOff (offset + len) < offset
  · rw [if_pos hbad, if_pos hbad, run_pure]
  · have hle : offset.toNat ≤ ioEnd offset len := by
      rw [ioEnd]
      omega
    rw [if_neg hbad, if_neg hbad]
    by_cases hzero : offset = toOff (offset + len)
    · have hend : min (ioEnd offset len) sin.din.size - offset.toNat = 0 := by
        rw [ioEnd, ← hzero]
        omega
      rw [if_pos hzero, run_pure, hend, memcpy_zero_len]
    · rw [if_neg hzero, if_neg (by simp)]
      by_cases hsize : sin.din.size ≤ offset.toNat
      · have hend : min (ioEnd offset len) sin.din.size - offset.toNat = 0 := by omega
        rw [if_pos hsize, run_pure, hend, memcpy_zero_len]
      · have hlt : offset.toNat < min (ioEnd offset len) sin.din.size := by
          rw [ioEnd] at *
          omega
        have hrun := sfsIoHead_read h buf hno hlt (by
          rw [SfsFs.blocksFor] at hblocks
          omega)
        rw [if_neg hsize, sfsIoSpan]
        refine (bind_of_ok hrun _).trans ?_
        rw [sfsIoOut, bind_of_ok (getSin_eq h.cached), if_neg (by dsimp only; omega), run_pure]

end Transfer

end Ucore
