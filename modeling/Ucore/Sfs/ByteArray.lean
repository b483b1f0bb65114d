import Ucore.Sfs.FileSpec

/-!
# Sequences of reads and writes

`sfs_io_nolock` against the specification of a file as an array of bytes: a sequence of reads and
writes gives the replies of `Splice.read` and `Splice.write` as long as no transfer contains a whole
block.

A file represents an array of bytes (`SfsFs.FileRep`) if the blocks it maps hold these bytes and the
state around it is consistent. A single call gets the reply of the array and leaves a file that
represents the array after the call (`exec_step`), and a write that needs new blocks takes them from
the free blocks, so the sequence goes through as long as these last (`execAll_eq_replies`).

## Whole blocks

A transfer that contains a whole block is different: `sfs_io_nolock` hands the *logical* number of
the block to `sfs_block_op`, and so reads or overwrites the block of the device with this number
(`sfsIoNolock_read_block`).
-/

namespace Ucore

open Bytes Prog

/-- A call of `sfs_io_nolock`. -/
inductive FileOp
  /-- Read `len` bytes at `offset` into `buf`. -/
  | read (buf : Bytes) (offset len : ℕ)
  /-- Write `data` at `offset`. -/
  | write (offset : ℕ) (data : List UInt8)

/-- What the caller learns: the result, `*alenp` and, for a read, the bytes transferred. -/
structure FileReply where
  ret : Option Errno
  alen : ℕ
  data : List UInt8
  deriving DecidableEq

namespace FileOp

/-- The call itself. -/
def exec (k : ℕ) : FileOp → Prog Errno SfsFs FileReply
  | read buf offset len => do
    let r ← sfsIoNolock k buf offset len false
    return ⟨r.ret, r.alen, toList r.buf r.alen⟩
  | write offset data => do
    let r ← sfsIoNolock k (ofList data) offset data.length true
    return ⟨r.ret, r.alen, []⟩

/-- The calls one after the other. -/
def execAll (k : ℕ) : List FileOp → Prog Errno SfsFs (List FileReply)
  | [] => return []
  | op :: ops => do
    let r ← op.exec k
    let rs ← execAll k ops
    return r :: rs

/-- The reply of an array of bytes. -/
def reply (data : List UInt8) : FileOp → FileReply
  | read _ offset len => ⟨none, (Splice.read data offset len).length, Splice.read data offset len⟩
  | write _ xs => ⟨none, xs.length, []⟩

/-- The array of bytes after the call. -/
def after (data : List UInt8) : FileOp → List UInt8
  | read _ _ _ => data
  | write offset xs => Splice.write data offset xs

/-- The replies of an array of bytes to a sequence of calls. -/
def replies : List UInt8 → List FileOp → List FileReply
  | _, [] => []
  | data, op :: ops => op.reply data :: replies (op.after data) ops

/-- The array of bytes after a sequence of calls. -/
def final : List UInt8 → List FileOp → List UInt8 := List.foldl after

/-- The call stays inside the mappable blocks, and a write starts at or before the end. -/
def Legal (data : List UInt8) : FileOp → Prop
  | read _ offset len => offset + len ≤ 4096 * 1036
  | write offset xs => offset ≤ data.length ∧ offset + xs.length ≤ 4096 * 1036

/-- The transfer, clipped at the end of the file if it is a read, contains no whole block. -/
def Unaligned (data : List UInt8) : FileOp → Prop
  | read _ offset len => NoWholeBlock offset (min (offset + len) data.length)
  | write offset xs => NoWholeBlock offset (offset + xs.length)

/-- Every call satisfies `P` of the contents it finds. -/
def Along (P : List UInt8 → FileOp → Prop) : List UInt8 → List FileOp → Prop
  | _, [] => True
  | data, op :: ops => P data op ∧ Along P (op.after data) ops

end FileOp

/-- Inode `k`, in memory as `sin`, is a file with contents `data`, in a consistent state. -/
structure SfsFs.FileRep (s : SfsFs) (k : ℕ) (sin : SfsInode) (data : List UInt8) : Prop
    extends s.FileOk k sin where
  type : sin.din.type ≠ sfsTypeDir
  blocks : sin.din.blocks = blocksFor sin.din.size
  contents : s.contents sin.din = data

section Single

variable {s : SfsFs} {k : ℕ} {sin : SfsInode} {data : List UInt8}

theorem SfsFs.FileRep.size (h : s.FileRep k sin data) : sin.din.size = data.length := by
  rw [← h.contents, SfsFs.length_contents]

/-- A read below the end of the file copies out the bytes of the file. -/
theorem sfsIoNolock_read (h : s.FileRep k sin data) {buf : Bytes} {offset len : ℕ}
    (hlegal : offset + len ≤ 4096 * 1036)
    (hno : NoWholeBlock offset (min (offset + len) data.length)) :
    (sfsIoNolock k buf offset len false).run s
      = .ok ⟨none, min len (data.length - offset),
          memcpy buf 0 (s.fileByte sin.din) offset (min len (data.length - offset))⟩ s := by
  have hsize := h.size
  have hend : ioEnd offset len = offset + len := by
    rw [ioEnd, ← Nat.cast_add, toOff_of_lt (by omega), Int.toNat_natCast, sfsMaxFileSize_eq]
    omega
  rw [sfsIoNolock_read_eq h.toFileOk h.type (by rw [h.blocks]) buf
      (by rwa [Int.toNat_natCast, hend, hsize]),
    readResult_of_lt (by omega), hend, hsize]
  have hlen : min (offset + len) data.length - offset = min len (data.length - offset) := by omega
  rw [hlen]

theorem exec_read (h : s.FileRep k sin data) {buf : Bytes} {offset len : ℕ}
    (hlegal : (FileOp.read buf offset len).Legal data)
    (hno : (FileOp.read buf offset len).Unaligned data) :
    ((FileOp.read buf offset len).exec k).run s
      = .ok ((FileOp.read buf offset len).reply data) s := by
  rw [FileOp.exec, bind_of_ok (sfsIoNolock_read h hlegal hno), run_pure, FileOp.reply,
    Splice.length_read]
  congr 2
  refine List.ext_getElem? fun i ↦ ?_
  rw [Splice.getElem?_read, getElem?_toList, ← h.contents, SfsFs.getElem?_contents,
    SfsFs.length_contents]
  dsimp only
  by_cases hlen : i < len
  · by_cases hi : offset + i < sin.din.size
    · have hcopy : memcpy buf 0 (s.fileByte sin.din) offset (min len (sin.din.size - offset)) i
          = s.fileByte sin.din (offset + i) :=
        memcpy_of_mem (by omega) (by omega)
      rw [if_pos (by omega), if_pos hlen, if_pos hi]
      exact congrArg some hcopy
    · rw [if_neg (by omega), if_pos hlen, if_neg hi]
  · rw [if_neg (by omega), if_neg hlen]

/-- What `sfs_io_nolock` leaves after a write that stored all its bytes. -/
theorem fileRep_of_stored (h : s.FileRep k sin data) {t : SfsFs} {sin' : SfsInode} {offset : ℕ}
    {xs : List UInt8} (hoff : offset ≤ data.length)
    (hst : s.Stored k sin (ofList xs) 0 offset xs.length t sin') :
    ∃ u sin'', (sfsIoOut k offset ⟨none, xs.length, ofList xs⟩).run t
        = .ok ⟨none, xs.length, ofList xs⟩ u ∧
      u.FileRep k sin'' (Splice.write data offset xs) ∧ u.freemap = t.freemap ∧
      (∀ n, SfsFs.growCost sin''.din n = SfsFs.growCost sin'.din n) := by
  have hsize := h.size
  have hblocks := hst.blocks
  have hdata : ∀ u : SfsFs, ∀ din : SfsDiskInode, din.size = max data.length (offset + xs.length) →
      (∀ i, u.fileByte din i = t.fileByte sin'.din i) →
        u.contents din = Splice.write data offset xs := by
    intro u din hdin hbyte
    refine List.ext_getElem? fun i ↦ ?_
    rw [SfsFs.getElem?_contents, hdin, Splice.getElem?_write hoff, hbyte, ← h.contents,
      SfsFs.getElem?_contents, SfsFs.length_contents]
    by_cases hin : offset ≤ i ∧ i < offset + xs.length
    · rw [if_pos hin, if_pos (by omega), hst.byte i (by rw [hblocks, SfsFs.blocksFor]; omega),
        if_pos hin, Nat.zero_add, ofList, List.getD_eq_getElem?_getD,
        List.getElem?_eq_getElem (by omega : i - offset < xs.length), Option.getD_some]
    · rw [if_neg hin]
      by_cases hi : i < sin.din.size
      · rw [if_pos (by omega), if_pos hi,
          hst.byte i (by rw [hblocks, h.blocks, SfsFs.blocksFor, SfsFs.blocksFor]; omega),
          if_neg hin, if_pos (by rw [h.blocks, SfsFs.blocksFor]; omega)]
      · rw [if_neg (by omega), if_neg hi]
  have hfile := hst.fileOk
  by_cases hgrow : sin'.din.size < offset + xs.length
  · refine ⟨t.setInode k (sin'.grow (offset + xs.length)), sin'.grow (offset + xs.length), ?_, ?_,
      rfl, fun _ ↦ rfl⟩
    · rw [sfsIoOut, bind_of_ok (getSin_eq hfile.cached), if_pos hgrow]
      rfl
    · have hmapped := hfile.mapped
      exact
      { ok := hfile.ok.setInode _ _
        tail := hfile.tail
        cached := SfsFs.setInode_inodes_self ..
        mapped := ⟨hmapped.used, hmapped.null, hmapped.indirect, hmapped.inj, hmapped.ne_indirect⟩
        type := hst.type.trans_ne h.type
        blocks := by
          change sin'.din.blocks = SfsFs.blocksFor (offset + xs.length)
          have := hst.size
          have := h.blocks
          rw [SfsFs.blocksFor] at *
          omega
        contents := hdata _ _ (by
          change offset + xs.length = _
          have := hst.size
          omega) fun _ ↦ rfl }
  · refine ⟨t, sin', ?_, ?_, rfl, fun _ ↦ rfl⟩
    · rw [sfsIoOut, bind_of_ok (getSin_eq hfile.cached), if_neg hgrow]
      rfl
    · have hsame := hst.size
      have hb := h.blocks
      exact
      { toFileOk := hfile
        type := hst.type.trans_ne h.type
        blocks := by
          rw [hsame]
          rw [SfsFs.blocksFor] at *
          omega
        contents := hdata _ _ (by omega) fun _ ↦ rfl }

/-- The bytes stored are those of any buffer that holds them. -/
theorem SfsFs.Stored.congr_buf {t : SfsFs} {sin' : SfsInode} {buf buf' : Bytes}
    {base base' start len : ℕ} (h : s.Stored k sin buf base start len t sin')
    (hbuf : ∀ i < len, buf' (base' + i) = buf (base + i)) :
    s.Stored k sin buf' base' start len t sin' where
  fileOk := h.fileOk
  blocks := h.blocks
  size := h.size
  type := h.type
  growCost := h.growCost
  byte i hi := by
    rw [h.byte i hi]
    by_cases hin : start ≤ i ∧ i < start + len
    · rw [if_pos hin, if_pos hin, hbuf (i - start) (by omega)]
    · rw [if_neg hin, if_neg hin]

/-- The label `out` does not look at the buffer. -/
theorem sfsIoOut_congr {t u : SfsFs} {offset alen : ℕ} {buf buf' : Bytes}
    (h : (sfsIoOut k offset ⟨none, alen, buf⟩).run t = .ok ⟨none, alen, buf⟩ u) :
    (sfsIoOut k offset ⟨none, alen, buf'⟩).run t = .ok ⟨none, alen, buf'⟩ u := by
  rw [sfsIoOut] at h ⊢
  cases hk : t.inodes k with
  | none =>
    have hpanic : (getSin k).run t = .panic := by
      rw [getSin, get_bind_run, hk]
      rfl
    rw [bind_of_panic hpanic] at h
    cases h
  | some sin' =>
    rw [bind_of_ok (getSin_eq hk)] at h ⊢
    by_cases hgrow : sin'.din.size < offset + alen
    · rw [if_pos hgrow, putSin_bind_run, run_pure] at h
      rw [if_pos hgrow, putSin_bind_run, run_pure, (Outcome.ok.inj h).2]
    · rw [if_neg hgrow, run_pure] at h
      rw [if_neg hgrow, run_pure, (Outcome.ok.inj h).2]

/-- A write that contains no whole block stores the bytes of the buffer. -/
theorem sfsIoNolock_write (h : s.FileRep k sin data) {buf : Bytes} {offset n : ℕ}
    {xs : List UInt8} (hbuf : ∀ i < xs.length, buf i = ofList xs i) (hpos : 0 < xs.length)
    (hlegal : (FileOp.write offset xs).Legal data) (hno : (FileOp.write offset xs).Unaligned data)
    (hn : SfsFs.blocksFor (Splice.write data offset xs).length ≤ n)
    (hroom : SfsFs.growCost sin.din n ≤ s.freemap.freeCount) :
    ∃ t sin', (sfsIoNolock k buf offset xs.length true).run s = .ok ⟨none, xs.length, buf⟩ t ∧
      t.FileRep k sin' (Splice.write data offset xs) ∧
      SfsFs.growCost sin'.din n ≤ t.freemap.freeCount := by
  obtain ⟨hoff, hend⟩ := hlegal
  rw [Splice.length_write hoff] at hn
  have hsize := h.size
  have hle : SfsFs.blocksFor (offset + xs.length) ≤ n := by
    rw [SfsFs.blocksFor] at *
    omega
  obtain ⟨t, sin', hrun, hst⟩ := sfsIoHead_write h.toFileOk buf hno
    (by omega) hend (by rw [h.blocks, SfsFs.blocksFor]; omega)
    ((SfsFs.growCost_mono _ hle).trans hroom)
  rw [Nat.add_sub_cancel_left] at hrun hst
  have hst' : s.Stored k sin (ofList xs) 0 offset xs.length t sin' :=
    hst.congr_buf fun i hi ↦ by rw [Nat.zero_add, hbuf i hi]
  obtain ⟨u, sin'', hout, hrep, hmap, hcost⟩ := fileRep_of_stored h hoff hst'
  refine ⟨u, sin'', ?_, hrep, ?_⟩
  · rw [sfsIoNolock_start h.cached h.type buf true hpos hend, if_pos rfl, sfsIoSpan,
      bind_of_ok hrun, sfsIoOut_congr hout]
  · rw [hmap, hcost]
    exact hst.room h.mapped hle hroom

theorem exec_write (h : s.FileRep k sin data) {offset n : ℕ} {xs : List UInt8}
    (hlegal : (FileOp.write offset xs).Legal data) (hno : (FileOp.write offset xs).Unaligned data)
    (hn : SfsFs.blocksFor (Splice.write data offset xs).length ≤ n)
    (hroom : SfsFs.growCost sin.din n ≤ s.freemap.freeCount) :
    ∃ t sin', ((FileOp.write offset xs).exec k).run s
        = .ok ((FileOp.write offset xs).reply data) t ∧
      t.FileRep k sin' (Splice.write data offset xs) ∧
      SfsFs.growCost sin'.din n ≤ t.freemap.freeCount := by
  rcases Nat.eq_zero_or_pos xs.length with hlen | hpos
  · rw [List.length_eq_zero_iff] at hlen
    subst hlen
    refine ⟨s, sin, ?_, ?_, hroom⟩
    · have hlen : offset ≤ 4096 * 1036 := by simpa using hlegal.2
      exact bind_of_ok (sfsIoNolock_zero h.cached h.type (ofList []) true hlen) _
    · have hid : Splice.write data offset [] = data := by simp [Splice.write]
      rwa [hid]
  · have hbuf : ∀ i < xs.length, ofList xs i = ofList xs i := fun _ _ ↦ rfl
    obtain ⟨t, sin', hio, hrep, hcost⟩ := sfsIoNolock_write h hbuf hpos hlegal hno hn hroom
    refine ⟨t, sin', ?_, hrep, hcost⟩
    rw [FileOp.exec, bind_of_ok hio]
    rfl

end Single

/-- A call that contains no whole block gets the reply of an array of bytes and leaves a file with
the contents of that array. -/
theorem exec_step {s : SfsFs} {k : ℕ} {sin : SfsInode} {data : List UInt8} {n : ℕ}
    (h : s.FileRep k sin data) (op : FileOp) (hlegal : op.Legal data) (hno : op.Unaligned data)
    (hn : SfsFs.blocksFor (op.after data).length ≤ n)
    (hroom : SfsFs.growCost sin.din n ≤ s.freemap.freeCount) :
    ∃ t sin', (op.exec k).run s = .ok (op.reply data) t ∧ t.FileRep k sin' (op.after data) ∧
      SfsFs.growCost sin'.din n ≤ t.freemap.freeCount := by
  cases op with
  | read buf offset len => exact ⟨s, sin, exec_read h hlegal hno, h, hroom⟩
  | write offset xs => exact exec_write h hlegal hno hn hroom

/-- The array never gets shorter. -/
theorem FileOp.length_final {data : List UInt8} {ops : List FileOp}
    (hlegal : FileOp.Along FileOp.Legal data ops) :
    data.length ≤ (FileOp.final data ops).length := by
  induction ops generalizing data with
  | nil => exact le_refl _
  | cons op ops ih =>
    refine le_trans ?_ (ih hlegal.2)
    cases op with
    | read buf offset len => exact le_refl _
    | write offset xs =>
      have := Splice.length_write hlegal.1.1 xs
      rw [FileOp.after]
      omega

/-- **A file is an array of bytes.** A sequence of reads and writes none of which transfers a whole
block gets the replies of an array of bytes and leaves a file with the contents of that array, when
there are blocks enough for the size the array ends up with. -/
theorem execAll_eq_replies {s : SfsFs} {k : ℕ} {sin : SfsInode} {data : List UInt8}
    {ops : List FileOp} (h : s.FileRep k sin data) (hlegal : FileOp.Along FileOp.Legal data ops)
    (hno : FileOp.Along FileOp.Unaligned data ops)
    (hroom : SfsFs.growCost sin.din (SfsFs.blocksFor (FileOp.final data ops).length)
      ≤ s.freemap.freeCount) :
    ∃ t sin', (FileOp.execAll k ops).run s = .ok (FileOp.replies data ops) t ∧
      t.FileRep k sin' (FileOp.final data ops) := by
  induction ops generalizing s sin data with
  | nil => exact ⟨s, sin, rfl, h⟩
  | cons op ops ih =>
    have hn : SfsFs.blocksFor (op.after data).length
        ≤ SfsFs.blocksFor (FileOp.final (op.after data) ops).length := by
      have := FileOp.length_final hlegal.2
      rw [SfsFs.blocksFor, SfsFs.blocksFor]
      omega
    obtain ⟨t, sin', hrun, hrep, hroom'⟩ := exec_step h op hlegal.1 hno.1 hn hroom
    obtain ⟨u, sin'', hrun', hrep'⟩ := ih hrep hlegal.2 hno.2 hroom'
    refine ⟨u, sin'', ?_, hrep'⟩
    rw [FileOp.execAll, bind_of_ok hrun, bind_of_ok hrun']
    rfl

/-! ## A transfer of a whole block -/

/-- A read of one aligned block, at any place but the first, copies out the device block whose
number is the logical one. -/
theorem sfsIoNolock_read_block {s : SfsFs} {k : ℕ} {sin : SfsInode} {data : List UInt8}
    (h : s.FileRep k sin data) {i : ℕ} (hi : 4096 * (i + 1) ≤ data.length) (hi0 : i ≠ 0)
    (hlt : i < s.super.blocks) (buf : Bytes) :
    (sfsIoNolock k buf (4096 * i : ℕ) 4096 false).run s
      = .ok ⟨none, 4096, memcpy buf 0 (s.dev.blk i) 0 4096⟩ s := by
  have hsize := h.size
  have hmapped := h.mapped.blocks_le
  have hblocks : i < sin.din.blocks := by
    rw [h.blocks, SfsFs.blocksFor]
    omega
  have hend : min (4096 * i + 4096) sin.din.size = 4096 * (i + 1) := by omega
  have hlen : 4096 * i + 4096 ≤ 4096 * 1036 := by omega
  have hge : ¬sin.din.size ≤ 4096 * i := by omega
  have hdiv : 4096 * (i + 1) / 4096 - 4096 * i / 4096 = 1 := by omega
  have hio := sfsIoBlocks_read_one h.ok h.cached h.mapped hblocks hi0 hlt buf 0
  have hhead : (sfsIoHead k buf (4096 * i) (4096 * (i + 1)) false).run s
      = .ok ⟨none, 4096, memcpy buf 0 (s.dev.blk i) 0 4096⟩ s := by
    rw [sfsIoHead, sfsBlksize_eq, if_neg (by omega), hdiv, Nat.mul_div_cancel_left _ (by omega),
      sfsIoMiddle_of_ok Nat.one_pos hio, sfsIoTail_aligned (by omega), Nat.one_mul, Nat.zero_add]
  rw [sfsIoNolock_start h.cached h.type buf false (Nat.succ_pos _) hlen, if_neg (by simp),
    if_neg hge, hend, sfsIoSpan, bind_of_ok hhead, sfsIoOut, bind_of_ok (getSin_eq h.cached),
    if_neg (by dsimp only; omega), run_pure]

theorem sampleFs_fileRep :
    sampleFs.FileRep 3 ⟨sampleFile, false, 1, 1, 1⟩ (sampleFs.contents sampleFile) where
  ok := sampleFs_ok
  tail := sampleFs_tailClear
  cached := rfl
  mapped := sampleFs_mapped_file
  type := by decide
  blocks := rfl
  contents := rfl

theorem length_contents_sampleFile : (sampleFs.contents sampleFile).length = 8192 :=
  SfsFs.length_contents _ _

/-- The write extends the file by a block, the reads cross the end of a block. -/
theorem execAll_eq_replies_sample :
    ∃ t sin', (FileOp.execAll 3 [.write 8190 [1, 2, 3, 4], .read zero 4094 5,
          .read zero 8188 100]).run sampleFs
        = .ok (FileOp.replies (sampleFs.contents sampleFile) [.write 8190 [1, 2, 3, 4],
          .read zero 4094 5, .read zero 8188 100]) t ∧
      t.FileRep 3 sin' (FileOp.final (sampleFs.contents sampleFile) [.write 8190 [1, 2, 3, 4],
        .read zero 4094 5, .read zero 8188 100]) := by
  have hlen := length_contents_sampleFile
  have hwrite : (Splice.write (sampleFs.contents sampleFile) 8190 [1, 2, 3, 4]).length = 8194 := by
    rw [Splice.length_write (by omega), hlen]
    rfl
  have hafter : ((FileOp.write 8190 [1, 2, 3, 4]).after (sampleFs.contents sampleFile)).length =
      8194 :=
    hwrite
  refine execAll_eq_replies sampleFs_fileRep ?_ ?_ ?_
  · exact ⟨⟨by omega, by norm_num⟩, by norm_num [FileOp.Legal], by norm_num [FileOp.Legal], trivial⟩
  · refine ⟨?_, ?_, ?_, trivial⟩
    · rw [FileOp.Unaligned]
      decide
    · rw [FileOp.Unaligned, hafter]
      decide
    · rw [FileOp.Unaligned, FileOp.after, hafter]
      decide
  · have hfinal : (FileOp.final (sampleFs.contents sampleFile) [.write 8190 [1, 2, 3, 4],
        .read zero 4094 5, .read zero 8188 100]).length = 8194 := hwrite
    rw [hfinal, sampleFs_freemap, freeCount_sampleFreemap]
    decide

/-- Reading the second block of a file returns the root inode. -/
theorem execAll_ne_replies_sample :
    sampleFs.FileRep 3 ⟨sampleFile, false, 1, 1, 1⟩ (sampleFs.contents sampleFile) ∧
      FileOp.Along FileOp.Legal (sampleFs.contents sampleFile) [.read zero 4096 4096] ∧
      SfsFs.growCost sampleFile (SfsFs.blocksFor
        (FileOp.final (sampleFs.contents sampleFile) [.read zero 4096 4096]).length)
        ≤ sampleFs.freemap.freeCount ∧
      ∀ t, (FileOp.execAll 3 [.read zero 4096 4096]).run sampleFs
        ≠ .ok (FileOp.replies (sampleFs.contents sampleFile) [.read zero 4096 4096]) t := by
  have hlen := length_contents_sampleFile
  refine ⟨sampleFs_fileRep, ⟨by norm_num [FileOp.Legal], trivial⟩, ?_, fun t hrun ↦ ?_⟩
  · have hfinal : (FileOp.final (sampleFs.contents sampleFile) [.read zero 4096 4096]).length
        = 8192 := by
      rw [FileOp.final, List.foldl_cons, List.foldl_nil, FileOp.after, hlen]
    rw [hfinal, sampleFs_freemap, freeCount_sampleFreemap]
    decide
  · have hio := sfsIoNolock_read_block sampleFs_fileRep (i := 1) (by omega) Nat.one_ne_zero
      (by rw [sampleFs_blocks]; omega) zero
    rw [Nat.mul_one] at hio
    have hexec : (FileOp.execAll 3 [.read zero 4096 4096]).run sampleFs
        = .ok [⟨none, 4096, toList (memcpy zero 0 (sampleFs.dev.blk 1) 0 4096) 4096⟩] sampleFs := by
      rw [FileOp.execAll, FileOp.exec, bind_of_ok (bind_of_ok hio _)]
      rfl
    rw [hexec, Outcome.ok.injEq, FileOp.replies, List.cons.injEq, FileOp.reply,
      FileReply.mk.injEq] at hrun
    have hbyte := congrArg (·[0]?) hrun.1.1.2.2
    rw [getElem?_toList, Splice.getElem?_read, if_pos (by omega), if_pos (by omega),
      SfsFs.getElem?_contents, if_pos (by decide)] at hbyte
    exact absurd hbyte (by decide)

end Ucore
