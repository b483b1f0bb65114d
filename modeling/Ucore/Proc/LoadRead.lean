import Ucore.Sfs.Inode
import Ucore.Vfs.Sysfile

/-!
# Reading the program file

`load_icode_read` of `kern/process/proc.c` goes to a position of the descriptor with `file_seek` and
reads from there with `sysfile_read`. The buffers are in the kernel, and while `load_icode` runs
`current->mm` is `NULL`, so that `copy_to_user` refuses none of them.

`load_icode` does not look at what the call returns; what it goes on with is the buffer. `readInto`
is that buffer as a function of the position, the length and what the buffer has held before, for a
descriptor as `do_execve` finds it. Nothing is lost by leaving the descriptor behind each call out:
a read that stays in the file and contains no whole block changes only its position, which the next
call sets again (`loadIcodeRead_contents`). A whole block is another matter, since `sfs_io_nolock`
then reads a block of the device that need not be the file's.
-/

namespace Ucore

open Bytes Prog Sysfile

/-- `file_seek` with `LSEEK_SET`. -/
def fileSeek (k : ℕ) (pos : ℤ) : SysProg Unit := do
  Sysfile.onSfs (sfsTryseek k pos)
  modify fun s ↦ { s with pos := pos }

/-- `load_icode_read`, with what `kmalloc` returns in `sysfile_read`. The memory of the user is the
buffer, from address 0 on. -/
def loadIcodeRead (k : ℕ) (buffer : Option Bytes) (len : ℕ) (offset : ℤ) : SysProg ℤ := do
  fileSeek k offset
  let ret ← sysfileRead (fun _ _ _ ↦ true) k buffer 0 len
  if ret ≠ len then return if ret < 0 then ret else -1 else return 0

/-- What `load_icode_read` leaves in a buffer that holds `b`; `buffer` says what the memory that
`kmalloc` gives to the call has held. -/
def readInto (k : ℕ) (buffer : ℕ → ℕ → Bytes) (s : Sys) (off len : ℕ) (b : Bytes) : Bytes :=
  ((loadIcodeRead k (some (buffer off len)) len (toOff off)).run { s with mem := b }).state?.elim b
    Sys.mem

section Contents

variable {s : Sys} {k off len : ℕ} {sin : SfsInode} {data : List UInt8}

/-- The block map has 1036 entries. -/
theorem SfsFs.FileRep.length_le {s : SfsFs} (h : s.FileRep k sin data) :
    data.length ≤ 4096 * 1036 := by
  have hblocks := h.blocks
  have hle := h.mapped.blocks_le
  have hsize := h.size
  rw [SfsFs.blocksFor] at hblocks
  omega

/-- Going to a position inside the file changes nothing else. -/
theorem fileSeek_inside (h : s.sfs.FileRep k sin data) (hoff : off ≤ data.length) :
    (fileSeek k off).run s = .ok () { s with pos := off } := by
  have hlegal := h.length_le
  have hsize : ¬(sin.din.size : ℤ) < off := by
    rw [h.size]
    omega
  have hseek : (sfsTryseek k off).run s.sfs = .ok () s.sfs := by
    rw [sfsTryseek, sfsMaxFileSize_eq, if_neg (by omega), bind_of_ok (getSin_eq h.cached),
      if_neg hsize, run_pure]
  have hzoom : (Sysfile.onSfs (sfsTryseek k off)).run s = .ok () s := zoom_of_ok hseek
  rw [fileSeek, bind_of_ok hzoom]
  rfl

/-- A read inside the file that contains no whole block gets the bytes of the file. It leaves the
file system and the access mode, whatever the position was before. -/
theorem loadIcodeRead_contents (buffer : Bytes) (h : s.sfs.FileRep k sin data)
    (hread : s.readable = true) (hin : off + len ≤ data.length)
    (hno : NoWholeBlock off (off + len)) :
    ∃ t, (loadIcodeRead k (some buffer) len off).run s = .ok 0 t ∧
      t.sfs = s.sfs ∧ t.readable = s.readable ∧
      ∀ i, t.mem i = if i < len then ofList data (off + i) else s.mem i := by
  have hseek := fileSeek_inside h (show off ≤ data.length by omega)
  have hlegal := h.length_le
  have hmin : min (off + len) data.length = off + len := min_eq_left hin
  have hgo : ¬CopyFails (fun _ _ _ ↦ true) k { s with pos := off } buffer 0 len :=
    not_copyFails_of_true
  obtain ⟨t, hrun, hsfs, hreadable, hmem⟩ :=
    @sysfileRead_contents { s with pos := off } k 0 len off buffer sin data _ h hread rfl
      (show off + len ≤ 4096 * 1036 by omega) (hmin.symm ▸ hno) hgo
  have hcount : (Splice.read data off len).length = len := by
    rw [Splice.length_read]
    omega
  rw [hcount] at hrun hmem
  refine ⟨t, ?_, hsfs, hreadable, fun i ↦ ?_⟩
  · rw [loadIcodeRead, bind_of_ok hseek, bind_of_ok hrun, if_neg (not_not.mpr rfl), run_pure]
  · rw [hmem]
    by_cases hi : i < len
    · rw [memcpy_of_mem (Nat.zero_le i) (by omega), if_pos hi, Nat.sub_zero, Nat.zero_add, ofList,
        ofList, List.getD_eq_getElem?_getD, List.getD_eq_getElem?_getD, Splice.read,
        List.getElem?_take_of_lt hi, List.getElem?_drop]
    · rw [memcpy_of_notMem (by omega), if_neg hi]

/-- `readInto` is the file, where `loadIcodeRead_contents` applies. -/
theorem readInto_of_inside {buffer : ℕ → ℕ → Bytes} {b : Bytes} {i : ℕ}
    (h : s.sfs.FileRep k sin data) (hread : s.readable = true) (hin : off + len ≤ data.length)
    (hno : NoWholeBlock off (off + len)) (hi : i < len) :
    readInto k buffer s off len b i = ofList data (off + i) := by
  obtain ⟨t, hrun, -, -, hmem⟩ := loadIcodeRead_contents (s := { s with mem := b })
    (buffer off len) h hread hin hno
  have hlegal := h.length_le
  have hoff : toOff off = off := toOff_of_lt (by omega)
  rw [readInto, hoff, hrun]
  exact (hmem i).trans (if_pos hi)

end Contents

end Ucore
