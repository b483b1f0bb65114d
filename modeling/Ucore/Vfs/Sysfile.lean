import Ucore.Sfs.ByteArray

/-!
# Reading and writing through a descriptor

`sysfile_read` and `sysfile_write` of `kern/fs/sysfile.c` with `file_read` and `file_write` of
`kern/fs/file.c`, on a descriptor of a regular file. A transfer is cut into chunks, which pass
through a buffer of the kernel: one that is read from the file is copied to the user behind it, one
that is written is copied from the user before it.

The position follows what `sfs_io_nolock` has moved. In `sysfile_write` that is what the call
returns. In `sysfile_read` it is so exactly when no chunk is refused by `copy_to_user`
(`sysfileIo_exact_iff`): the position has then moved over bytes that the user has not got.
-/

namespace Ucore

open Bytes Prog

/-! ## How much is moved -/

section Alen

variable {s : SfsFs} {k offset endpos : ℕ} {buf : Bytes} {write : Bool}

theorem getSin_returns (k : ℕ) (s : SfsFs) :
    ((getSin k).run s).Sat (fun _ _ ↦ True) fun _ _ ↦ False := by
  rw [getSin, get_bind_run]
  cases s.inodes k with
  | some sin => trivial
  | none => trivial

/-- `sfs_bmap_load_nolock` and the transfer may fail, but the attempt does not. -/
theorem attempt_returns {α : Type} (m : Prog Errno SfsFs α) (s : SfsFs) :
    (m.attempt.run s).Sat (fun _ _ ↦ True) fun _ _ ↦ False := by
  rw [run_attempt]
  cases m.run s with
  | ok a t => trivial
  | error e t => trivial
  | panic => trivial

theorem sfsIoTail_alen (k : ℕ) (buf : Bytes) (alen blkno endpos : ℕ) (write : Bool) (s : SfsFs) :
    ((sfsIoTail k buf alen blkno endpos write).run s).Sat
      (fun r _ ↦ r.alen ≤ alen + endpos % 4096) fun _ _ ↦ False := by
  rw [sfsIoTail, sfsBlksize_eq]
  by_cases hend : endpos % 4096 ≠ 0
  · rw [if_pos hend]
    refine sat_bind (attempt_returns _ s) fun r t _ ↦ ?_
    cases r with
    | ok b => exact le_refl _
    | error e => exact Nat.le_add_right _ _
  · rw [if_neg hend]
    exact Nat.le_add_right _ _

theorem sfsIoMiddle_alen (k : ℕ) (buf : Bytes) (alen blkno nblks endpos : ℕ) (write : Bool)
    (s : SfsFs) : ((sfsIoMiddle k buf alen blkno nblks endpos write).run s).Sat
      (fun r _ ↦ r.alen ≤ alen + nblks * 4096 + endpos % 4096) fun _ _ ↦ False := by
  rw [sfsIoMiddle]
  by_cases hblks : 0 < nblks
  · rw [if_pos hblks]
    refine sat_bind (attempt_returns _ s) fun r t _ ↦ ?_
    cases r with
    | ok b => exact sfsIoTail_alen ..
    | error e => exact (Nat.le_add_right _ _).trans (Nat.le_add_right _ _)
  · rw [if_neg hblks]
    refine (sfsIoTail_alen k buf alen blkno endpos write s).imp (fun r _ hr ↦ ?_) fun _ _ h ↦ h
    exact hr.trans (Nat.add_le_add_right (Nat.le_add_right _ _) _)

/-- No more is moved than lies between the two ends. -/
theorem sfsIoSpan_alen (k : ℕ) (buf : Bytes) (write : Bool) (hlt : offset < endpos) (s : SfsFs) :
    ((sfsIoSpan k buf offset endpos write).run s).Sat (fun r _ ↦ offset + r.alen ≤ endpos)
      fun _ _ ↦ False := by
  have hhead : ((sfsIoHead k buf offset endpos write).run s).Sat
      (fun r _ ↦ offset + r.alen ≤ endpos) fun _ _ ↦ False := by
    rw [sfsIoHead, sfsBlksize_eq]
    by_cases hoff : offset % 4096 ≠ 0
    · rw [if_pos hoff]
      by_cases hsame : endpos / 4096 - offset / 4096 = 0
      · rw [if_pos hsame]
        refine sat_bind (attempt_returns _ s) fun r t _ ↦ ?_
        cases r with
        | ok b =>
          change offset + (endpos - offset) ≤ endpos
          omega
        | error e =>
          change offset + 0 ≤ endpos
          omega
      · rw [if_neg hsame]
        refine sat_bind (attempt_returns _ s) fun r t _ ↦ ?_
        cases r with
        | ok b =>
          refine (sfsIoMiddle_alen k b _ _ _ endpos write t).imp (fun r _ hr ↦ ?_) fun _ _ h ↦ h
          omega
        | error e =>
          change offset + 0 ≤ endpos
          omega
    · rw [if_neg hoff]
      refine (sfsIoMiddle_alen k buf _ _ _ endpos write s).imp (fun r _ hr ↦ ?_) fun _ _ h ↦ h
      omega
  rw [sfsIoSpan]
  refine sat_bind hhead fun r t hr ↦ ?_
  rw [sfsIoOut]
  refine sat_bind (getSin_returns k t) fun sin u _ ↦ ?_
  by_cases hgrow : sin.din.size < offset + r.alen
  · rw [if_pos hgrow]
    exact hr
  · rw [if_neg hgrow]
    exact hr

theorem toOff_le {n : ℤ} (h : 0 ≤ n) : toOff n ≤ n := by
  rw [toOff, Int.bmod_def]
  split <;> omega

/-- `sfs_io_nolock` does not fail; an error of it is a value. It moves at most what was asked for,
and something only at a position inside the largest file. -/
theorem sfsIoNolock_alen (k : ℕ) (buf : Bytes) (offset : ℤ) (len : ℕ) (write : Bool) (s : SfsFs) :
    ((sfsIoNolock k buf offset len write).run s).Sat
      (fun r _ ↦ r.alen ≤ len ∧
        (r.alen ≠ 0 → 0 ≤ offset ∧ offset + r.alen ≤ sfsMaxFileSize))
      fun _ _ ↦ False := by
  rw [sfsIoNolock]
  refine sat_bind (getSin_returns k s) fun sin t _ ↦ sat_assert_bind fun _ ↦ ?_
  by_cases hbad : offset < 0 ∨ (sfsMaxFileSize : ℤ) ≤ offset ∨ toOff (offset + len) < offset
  · rw [if_pos hbad]
    exact ⟨Nat.zero_le _, fun h ↦ absurd rfl h⟩
  rw [if_neg hbad]
  by_cases hzero : offset = toOff (offset + len)
  · rw [if_pos hzero]
    exact ⟨Nat.zero_le _, fun h ↦ absurd rfl h⟩
  rw [if_neg hzero]
  have hend : toOff (offset + len) ≤ offset + len := toOff_le (by omega)
  by_cases hwrite : write = true
  · rw [if_pos hwrite]
    refine (sfsIoSpan_alen k buf write (by omega) t).imp (fun r _ hr ↦ ⟨?_, fun _ ↦ ⟨?_, ?_⟩⟩)
      fun _ _ h ↦ h
    · omega
    · omega
    · omega
  rw [if_neg hwrite]
  by_cases hsize : sin.din.size ≤ offset.toNat
  · rw [if_pos hsize]
    exact ⟨Nat.zero_le _, fun h ↦ absurd rfl h⟩
  · rw [if_neg hsize]
    refine (sfsIoSpan_alen k buf write (by omega) t).imp (fun r _ hr ↦ ⟨?_, fun _ ↦ ⟨?_, ?_⟩⟩)
      fun _ _ h ↦ h
    · omega
    · omega
    · omega

end Alen

/-! ## The routines -/

/-- The kernel, one descriptor of it, and the memory of the user. -/
structure Sys where
  sfs : SfsFs
  readable : Bool
  writable : Bool
  /-- `file->pos`. -/
  pos : ℤ
  mem : Bytes

/-- A routine of the descriptor. -/
abbrev SysProg (α : Type) : Type := Prog Errno Sys α

def iobufSize : ℕ := 4096

namespace Sysfile

/-- A routine of the file system. -/
def onSfs {α : Type} (m : Prog Errno SfsFs α) : SysProg α :=
  m.zoom Sys.sfs fun sfs s ↦ { s with sfs := sfs }

/-- `file_read` and `file_write` on inode `k`, behind the check of the access mode, with `sfs_io`
below them: `*copied_store` is `alen` of the result. The descriptor is open, and the reference that
is held meanwhile is not the last one. -/
def fileIo (k : ℕ) (base : Bytes) (len : ℕ) (write : Bool) : SysProg IoResult := do
  let s ← get
  let r ← onSfs (sfsIoNolock k base s.pos len write)
  assert (r.alen ≤ len)
  modify fun s ↦ { s with pos := toOff (s.pos + r.alen) }
  pure r

def fileRead (k : ℕ) (base : Bytes) (len : ℕ) : SysProg IoResult := do
  let s ← get
  if s.readable = false then pure ⟨some .inval, 0, base⟩ else fileIo k base len false

def fileWrite (k : ℕ) (base : Bytes) (len : ℕ) : SysProg IoResult := do
  let s ← get
  if s.writable = false then pure ⟨some .inval, 0, base⟩ else fileIo k base len true

/-- The loop of `sysfile_read`: `ret` and `copied` at its end. `check` is the answer of
`user_mem_check`, which `copy_to_user` asks for. -/
def sysfileReadLoop (check : ℕ → ℕ → Bool → Bool) (k : ℕ) (buffer : Bytes) (base len copied : ℕ) :
    SysProg (Option Errno × ℕ) :=
  if _hlen : len = 0 then
    pure (none, copied)
  else do
    let r ← fileRead k buffer (min iobufSize len)
    if _halen : r.alen = 0 then
      pure (r.ret, copied)
    else if check base r.alen true = true then do
      modify fun s ↦ { s with mem := memcpy s.mem base r.buf 0 r.alen }
      assert (r.alen ≤ len)
      if r.ret = none then
        sysfileReadLoop check k r.buf (base + r.alen) (len - r.alen) (copied + r.alen)
      else
        pure (r.ret, copied + r.alen)
    else
      pure (some (r.ret.getD .inval), copied)
termination_by len
decreasing_by omega

/-- The loop of `sysfile_write`. -/
def sysfileWriteLoop (check : ℕ → ℕ → Bool → Bool) (k : ℕ) (buffer : Bytes)
    (base len copied : ℕ) : SysProg (Option Errno × ℕ) :=
  if _hlen : len = 0 then
    pure (none, copied)
  else if check base (min iobufSize len) false = true then do
    let s ← get
    let r ← fileWrite k (memcpy buffer 0 s.mem base (min iobufSize len)) (min iobufSize len)
    assert (r.alen ≤ len)
    if _halen : r.ret ≠ none ∨ r.alen = 0 then
      pure (r.ret, copied + r.alen)
    else
      sysfileWriteLoop check k r.buf (base + r.alen) (len - r.alen) (copied + r.alen)
  else
    pure (some .inval, copied)
termination_by len
decreasing_by omega

/-- The label `out`: `copied` as an `int` if it is not zero, `ret` otherwise. -/
def sysfileOut (r : Option Errno × ℕ) : SysProg ℤ :=
  if r.2 ≠ 0 then
    pure ((r.2 : ℤ).bmod (2 ^ 32))
  else
    match r.1 with
    | none => pure 0
    | some e => fail e

/-- `sysfile_read`, with what `kmalloc` returns. -/
def sysfileRead (check : ℕ → ℕ → Bool → Bool) (k : ℕ) (buffer : Option Bytes) (base len : ℕ) :
    SysProg ℤ :=
  if len = 0 then
    pure 0
  else do
    let s ← get
    if s.readable = false then
      fail .inval
    else
      match buffer with
      | none => fail .noMem
      | some buffer => do
        let r ← sysfileReadLoop check k buffer base len 0
        sysfileOut r

/-- `sysfile_write`, with what `kmalloc` returns. -/
def sysfileWrite (check : ℕ → ℕ → Bool → Bool) (k : ℕ) (buffer : Option Bytes) (base len : ℕ) :
    SysProg ℤ :=
  if len = 0 then
    pure 0
  else do
    let s ← get
    if s.writable = false then
      fail .inval
    else
      match buffer with
      | none => fail .noMem
      | some buffer => do
        let r ← sysfileWriteLoop check k buffer base len 0
        sysfileOut r

/-! ## What a call should do -/

/-- Calls of `sfs_io_nolock`, each at the position where the one before has ended, that move these
bytes between the file and the buffer. -/
inductive Moved (k : ℕ) (write : Bool) : SfsFs → ℤ → List UInt8 → SfsFs → Prop
  | done (s : SfsFs) (pos : ℤ) : Moved k write s pos [] s
  | chunk {s t u : SfsFs} {pos : ℤ} {len : ℕ} {buf : Bytes} {r : IoResult} {l : List UInt8}
    (h : (sfsIoNolock k buf pos len write).run s = .ok r t)
    (hrest : Moved k write t (pos + r.alen) l u) :
    Moved k write s pos (toList (if write then buf else r.buf) r.alen ++ l) u

/-- A call of `sysfile_read` that returns `r` has moved the position by `r`, and the user has got
the `r` bytes of the file at the old position; one that fails has left the position. -/
structure ReadExact (k base : ℕ) (s : Sys) (o : Outcome Errno Sys ℤ) : Prop where
  ok : ∀ r t, o = .ok r t → t.pos = s.pos + r ∧ ∃ l : List UInt8, (l.length : ℤ) = r ∧
    Moved k false s.sfs s.pos l t.sfs ∧ t.mem = memcpy s.mem base (ofList l) 0 l.length
  error : ∀ e t, o = .error e t → t.pos = s.pos

/-- The same for `sysfile_write`: the file has got the first `r` bytes of the user. -/
structure WriteExact (k base : ℕ) (s : Sys) (o : Outcome Errno Sys ℤ) : Prop where
  ok : ∀ r t, o = .ok r t → t.pos = s.pos + r ∧ ∃ n : ℕ, (n : ℤ) = r ∧
    Moved k true s.sfs s.pos (toList (fun i ↦ s.mem (base + i)) n) t.sfs ∧ t.mem = s.mem
  error : ∀ e t, o = .error e t → t.pos = s.pos

/-- The loop of `sysfile_read` comes to a chunk of the file that `copy_to_user` refuses. -/
inductive CopyFails (check : ℕ → ℕ → Bool → Bool) (k : ℕ) : Sys → Bytes → ℕ → ℕ → Prop
  | here {s t : Sys} {buffer : Bytes} {base len : ℕ} {r : IoResult} (hlen : len ≠ 0)
    (hread : (fileRead k buffer (min iobufSize len)).run s = .ok r t) (halen : r.alen ≠ 0)
    (hcheck : check base r.alen true ≠ true) : CopyFails check k s buffer base len
  | later {s t : Sys} {buffer : Bytes} {base len : ℕ} {r : IoResult} (hlen : len ≠ 0)
    (hread : (fileRead k buffer (min iobufSize len)).run s = .ok r t) (halen : r.alen ≠ 0)
    (hcheck : check base r.alen true = true) (hret : r.ret = none)
    (hrest : CopyFails check k { t with mem := memcpy t.mem base r.buf 0 r.alen } r.buf
      (base + r.alen) (len - r.alen)) : CopyFails check k s buffer base len

/-! ## One chunk -/

section Chunk

variable {s t : Sys} {k len : ℕ} {base : Bytes} {write : Bool} {r : IoResult}

/-- What `file_read` and `file_write` do. -/
structure Chunk (k : ℕ) (base : Bytes) (len : ℕ) (write : Bool) (s : Sys) (r : IoResult) (t : Sys) :
    Prop where
  le : r.alen ≤ len
  io : (sfsIoNolock k base s.pos len write).run s.sfs = .ok r t.sfs
  state : t = { s with sfs := t.sfs, pos := s.pos + r.alen }
  inside : r.alen ≠ 0 → 0 ≤ s.pos ∧ s.pos + r.alen ≤ sfsMaxFileSize

/-- The position follows what has been moved. -/
theorem fileIo_run (hpos : toOff s.pos = s.pos) {u : SfsFs}
    (hio : (sfsIoNolock k base s.pos len write).run s.sfs = .ok r u) :
    (fileIo k base len write).run s = .ok r { s with sfs := u, pos := s.pos + r.alen } := by
  have halen := sfsIoNolock_alen k base s.pos len write s.sfs
  rw [hio] at halen
  obtain ⟨hle, hinside⟩ := halen
  have hoff : toOff (s.pos + r.alen) = s.pos + r.alen := by
    by_cases hzero : r.alen = 0
    · rw [hzero, Nat.cast_zero, add_zero, hpos]
    · have hin := hinside hzero
      rw [sfsMaxFileSize_eq] at hin
      exact Int.bmod_eq_of_le (by omega) (by omega)
  have hrun : (onSfs (sfsIoNolock k base s.pos len write)).run s =
      .ok r { s with sfs := u } := zoom_of_ok hio
  rw [fileIo, get_bind_run, bind_of_ok hrun, assert_bind_run hle, modify_bind_run, run_pure]
  dsimp only
  rw [hoff]

theorem fileIo_chunk (hpos : toOff s.pos = s.pos) (k : ℕ) (base : Bytes) (len : ℕ)
    (write : Bool) : ((fileIo k base len write).run s).Sat (Chunk k base len write s)
      fun _ _ ↦ False := by
  have halen := sfsIoNolock_alen k base s.pos len write s.sfs
  cases hio : (sfsIoNolock k base s.pos len write).run s.sfs with
  | ok r u =>
    rw [hio] at halen
    rw [fileIo_run hpos hio]
    exact ⟨halen.1, hio, rfl, halen.2⟩
  | error e u =>
    rw [hio] at halen
    exact halen.elim
  | panic =>
    have hrun : (onSfs (sfsIoNolock k base s.pos len write)).run s = .panic := zoom_of_panic hio
    rw [fileIo, get_bind_run, bind_of_panic hrun]
    trivial

theorem fileRead_eq (h : s.readable = true) :
    (fileRead k base len).run s = (fileIo k base len false).run s := by
  rw [fileRead, get_bind_run, if_neg (by rw [h]; rintro ⟨⟩)]

theorem fileWrite_eq (h : s.writable = true) :
    (fileWrite k base len).run s = (fileIo k base len true).run s := by
  rw [fileWrite, get_bind_run, if_neg (by rw [h]; rintro ⟨⟩)]

theorem Chunk.pos (h : Chunk k base len write s r t) : t.pos = s.pos + r.alen := by rw [h.state]

theorem Chunk.mem (h : Chunk k base len write s r t) : t.mem = s.mem := by rw [h.state]

theorem Chunk.readable (h : Chunk k base len write s r t) : t.readable = s.readable := by
  rw [h.state]

theorem Chunk.writable (h : Chunk k base len write s r t) : t.writable = s.writable := by
  rw [h.state]

/-- The position stays an `off_t`. -/
theorem Chunk.off (h : Chunk k base len write s r t) (hpos : toOff s.pos = s.pos) :
    toOff t.pos = t.pos := by
  rw [h.pos]
  by_cases hzero : r.alen = 0
  · rw [hzero, Nat.cast_zero, add_zero, hpos]
  · have hin := h.inside hzero
    rw [sfsMaxFileSize_eq] at hin
    exact Int.bmod_eq_of_le (by omega) (by omega)

end Chunk

/-! ## The chunks of a read -/

section Read

variable {check : ℕ → ℕ → Bool → Bool} {k base len copied : ℕ} {buffer : Bytes} {s t u : Sys}
  {r : IoResult} {l : List UInt8}

theorem length_toList (b : Bytes) (n : ℕ) : (toList b n).length = n := by
  rw [toList, List.length_map, List.length_range]

/-- Two copies one behind the other. -/
theorem memcpy_toList_append (mem b : Bytes) (base a : ℕ) (l : List UInt8) :
    memcpy (memcpy mem base b 0 a) (base + a) (ofList l) 0 l.length =
      memcpy mem base (ofList (toList b a ++ l)) 0 (toList b a ++ l).length := by
  have hlen : (toList b a).length = a := length_toList b a
  funext i
  have hget : ofList (toList b a ++ l) (i - base) =
      if i - base < a then b (i - base) else ofList l (i - base - a) := by
    rw [ofList, List.getD_eq_getElem?_getD, List.getElem?_append, hlen, getElem?_toList]
    by_cases hi : i - base < a
    · rw [if_pos hi, if_pos hi, if_pos hi, Option.getD_some]
    · rw [if_neg hi, if_neg hi, ofList, List.getD_eq_getElem?_getD]
  by_cases hlow : i < base
  · rw [memcpy_of_notMem (by omega), memcpy_of_notMem (by omega), memcpy_of_notMem (by omega)]
  by_cases hmid : i < base + a
  · rw [memcpy_of_notMem (by omega), memcpy_of_mem (by omega) (by omega),
      memcpy_of_mem (by omega) (by rw [List.length_append, hlen]; omega), Nat.zero_add, hget,
      if_pos (by omega)]
  by_cases hhigh : i < base + a + l.length
  · rw [memcpy_of_mem (by omega) (by omega),
      memcpy_of_mem (by omega) (by rw [List.length_append, hlen]; omega), Nat.zero_add,
      Nat.zero_add, hget, if_neg (by omega), Nat.sub_add_eq]
  · rw [memcpy_of_notMem (by omega), memcpy_of_notMem (by omega),
      memcpy_of_notMem (by rw [List.length_append, hlen]; omega)]

/-- The user has got these bytes of the file. -/
structure Delivered (k base : ℕ) (s : Sys) (l : List UInt8) (t : Sys) : Prop where
  pos : t.pos = s.pos + l.length
  moved : Moved k false s.sfs s.pos l t.sfs
  mem : t.mem = memcpy s.mem base (ofList l) 0 l.length
  inside : l ≠ [] → 0 ≤ s.pos ∧ s.pos + l.length ≤ sfsMaxFileSize

theorem delivered_nil (k base : ℕ) (s : Sys) : Delivered k base s [] s where
  pos := by rw [List.length_nil, Nat.cast_zero, add_zero]
  moved := .done s.sfs s.pos
  mem := by rw [List.length_nil, memcpy_zero_len]
  inside h := absurd rfl h

/-- A chunk with nothing in it. -/
theorem Chunk.delivered_nil {n : ℕ} (h : Chunk k buffer n false s r t) (halen : r.alen = 0) :
    Delivered k base s [] t where
  pos := by rw [h.pos, halen, List.length_nil]
  moved := by
    have hmoved : Moved k false s.sfs s.pos (toList r.buf r.alen ++ []) t.sfs :=
      .chunk h.io (.done _ _)
    rwa [halen, List.append_nil] at hmoved
  mem := by rw [h.mem, List.length_nil, memcpy_zero_len]
  inside hne := absurd rfl hne

/-- A chunk that is delivered, and the rest. -/
theorem Chunk.delivered {n : ℕ} (h : Chunk k buffer n false s r t) (halen : r.alen ≠ 0)
    (hrest : Delivered k (base + r.alen) { t with mem := memcpy t.mem base r.buf 0 r.alen } l u) :
    Delivered k base s (toList r.buf r.alen ++ l) u where
  pos := by
    rw [hrest.pos, List.length_append, length_toList, h.pos]
    push_cast
    ring
  moved := by
    have hmoved := hrest.moved
    dsimp only at hmoved
    rw [h.pos] at hmoved
    exact .chunk h.io hmoved
  mem := by rw [hrest.mem, h.mem, memcpy_toList_append]
  inside _ := by
    have hpos := h.pos
    have hin := h.inside halen
    refine ⟨hin.1, ?_⟩
    rw [List.length_append, length_toList]
    by_cases hnil : l = []
    · rw [hnil, List.length_nil, Nat.add_zero]
      exact hin.2
    · have hin' := (hrest.inside hnil).2
      dsimp only at hin'
      push_cast
      omega

/-- The loop, when no chunk is refused: what is copied has been delivered. By induction on what is
left of the length. -/
theorem sysfileReadLoop_delivered (copied : ℕ) (hread : s.readable = true)
    (hpos : toOff s.pos = s.pos) (hgo : ¬CopyFails check k s buffer base len) :
    ((sysfileReadLoop check k buffer base len copied).run s).Sat
      (fun r t ↦ ∃ l, r.2 = copied + l.length ∧ Delivered k base s l t) fun _ _ ↦ False := by
  induction len using Nat.strong_induction_on generalizing s buffer base copied with
  | _ len ih =>
    rw [sysfileReadLoop]
    by_cases hlen : len = 0
    · rw [dif_pos hlen]
      exact ⟨[], rfl, delivered_nil k base s⟩
    rw [dif_neg hlen]
    have hchunk := fileIo_chunk hpos k buffer (min iobufSize len) false
    rw [← fileRead_eq hread] at hchunk
    cases hrun : (fileRead k buffer (min iobufSize len)).run s with
    | ok r t =>
      rw [hrun] at hchunk
      rw [bind_of_ok hrun]
      by_cases halen : r.alen = 0
      · rw [dif_pos halen]
        exact ⟨[], rfl, hchunk.delivered_nil halen⟩
      have hcheck : check base r.alen true = true := by
        by_contra hno
        exact hgo (.here hlen hrun halen hno)
      have hle : r.alen ≤ len := hchunk.le.trans (min_le_right _ _)
      rw [dif_neg halen, if_pos hcheck, modify_bind_run, assert_bind_run hle]
      by_cases hret : r.ret = none
      · rw [if_pos hret]
        have hrest : ¬CopyFails check k { t with mem := memcpy t.mem base r.buf 0 r.alen } r.buf
            (base + r.alen) (len - r.alen) := fun hfail ↦
          hgo (.later hlen hrun halen hcheck hret hfail)
        refine (ih (len - r.alen) (by omega) (copied + r.alen)
          (s := { t with mem := memcpy t.mem base r.buf 0 r.alen }) (hchunk.readable.trans hread)
          (hchunk.off hpos) hrest).imp ?_ fun _ _ h ↦ h
        rintro r' u ⟨l, hcopied, hdel⟩
        refine ⟨_, ?_, hchunk.delivered halen hdel⟩
        rw [hcopied, List.length_append, length_toList, Nat.add_assoc]
      · rw [if_neg hret]
        refine ⟨toList r.buf r.alen ++ [], ?_, hchunk.delivered halen (delivered_nil ..)⟩
        rw [List.append_nil, length_toList]
    | error e t =>
      rw [hrun] at hchunk
      exact hchunk.elim
    | panic =>
      rw [bind_of_panic hrun]
      trivial

/-- The loop, when a chunk is refused: it ends with an error, and the position is beyond what has
been copied. -/
theorem sysfileReadLoop_refused (copied : ℕ) (hread : s.readable = true)
    (hpos : toOff s.pos = s.pos) (hfail : CopyFails check k s buffer base len) :
    ∃ (e : Errno) (n : ℕ) (t : Sys),
      (sysfileReadLoop check k buffer base len copied).run s = .ok (some e, copied + n) t ∧
        s.pos + n < t.pos ∧ 0 ≤ s.pos ∧ s.pos + n ≤ sfsMaxFileSize := by
  induction hfail generalizing copied with
  | @here s t buffer base len r hlen hrun halen hcheck =>
    have hchunk := fileIo_chunk hpos k buffer (min iobufSize len) false
    rw [← fileRead_eq hread, hrun] at hchunk
    have hin := hchunk.inside halen
    refine ⟨r.ret.getD .inval, 0, t, ?_, ?_, hin.1, ?_⟩
    · rw [sysfileReadLoop, dif_neg hlen, bind_of_ok hrun, dif_neg halen, if_neg hcheck, run_pure]
      rfl
    · rw [hchunk.pos]
      omega
    · omega
  | @later s t buffer base len r hlen hrun halen hcheck hret hrest ih =>
    have hchunk := fileIo_chunk hpos k buffer (min iobufSize len) false
    rw [← fileRead_eq hread, hrun] at hchunk
    have hle : r.alen ≤ len := hchunk.le.trans (min_le_right _ _)
    obtain ⟨e, n, u, hloop, hlt, -, hmax⟩ := ih (copied + r.alen)
      (hchunk.readable.trans hread) (hchunk.off hpos)
    dsimp only at hlt hmax
    rw [hchunk.pos] at hlt hmax
    refine ⟨e, r.alen + n, u, ?_, ?_, (hchunk.inside halen).1, ?_⟩
    · rw [sysfileReadLoop, dif_neg hlen, bind_of_ok hrun, dif_neg halen, if_pos hcheck,
        modify_bind_run, assert_bind_run hle, if_pos hret, hloop, Nat.add_assoc]
    · push_cast
      omega
    · push_cast
      omega

end Read

/-! ## The chunks of a write -/

section Write

variable {check : ℕ → ℕ → Bool → Bool} {k base len copied n : ℕ} {buffer : Bytes} {s t u : Sys}
  {r : IoResult}

/-- The file has got the first `n` bytes of the user. -/
structure Taken (k base : ℕ) (s : Sys) (n : ℕ) (t : Sys) : Prop where
  pos : t.pos = s.pos + n
  moved : Moved k true s.sfs s.pos (toList (fun i ↦ s.mem (base + i)) n) t.sfs
  mem : t.mem = s.mem
  inside : n ≠ 0 → 0 ≤ s.pos ∧ s.pos + n ≤ sfsMaxFileSize

theorem taken_zero (k base : ℕ) (s : Sys) : Taken k base s 0 s where
  pos := by rw [Nat.cast_zero, add_zero]
  moved := .done s.sfs s.pos
  mem := rfl
  inside h := absurd rfl h

theorem toList_add (f : Bytes) (a n : ℕ) :
    toList f (a + n) = toList f a ++ toList (fun i ↦ f (a + i)) n := by
  rw [toList, List.range_add, List.map_append, List.map_map]
  rfl

/-- The buffer of the kernel holds the bytes of the user. -/
theorem toList_memcpy_user (buffer mem : Bytes) (base : ℕ) {a m : ℕ} (h : a ≤ m) :
    toList (memcpy buffer 0 mem base m) a = toList (fun i ↦ mem (base + i)) a := by
  refine List.map_congr_left fun i hi ↦ ?_
  have hlt : i < 0 + m := by
    have hi' := List.mem_range.mp hi
    omega
  rw [memcpy_of_mem (Nat.zero_le i) hlt, Nat.sub_zero]

/-- A chunk that the file takes, and the rest. -/
theorem Chunk.taken {m : ℕ} (h : Chunk k (memcpy buffer 0 s.mem base m) m true s r t)
    (hrest : Taken k (base + r.alen) t n u) : Taken k base s (r.alen + n) u where
  pos := by
    rw [hrest.pos, h.pos]
    push_cast
    ring
  moved := by
    have hmoved := hrest.moved
    rw [h.pos, h.mem] at hmoved
    have hchunk := Moved.chunk h.io hmoved
    rw [if_pos rfl, toList_memcpy_user _ _ _ h.le] at hchunk
    rw [toList_add]
    simpa only [Nat.add_assoc] using hchunk
  mem := hrest.mem.trans h.mem
  inside hne := by
    have hpos := h.pos
    by_cases halen : r.alen = 0
    · have hin := hrest.inside (by omega)
      rw [halen] at hpos ⊢
      push_cast at hpos ⊢
      omega
    · have hin := h.inside halen
      refine ⟨hin.1, ?_⟩
      by_cases hn : n = 0
      · rw [hn, Nat.add_zero]
        exact hin.2
      · have hin' := (hrest.inside hn).2
        push_cast
        omega

/-- The loop: what is copied has been taken. By induction on what is left of the length. -/
theorem sysfileWriteLoop_taken (hwrite : s.writable = true) (hpos : toOff s.pos = s.pos) :
    ((sysfileWriteLoop check k buffer base len copied).run s).Sat
      (fun r t ↦ ∃ n, r.2 = copied + n ∧ Taken k base s n t) fun _ _ ↦ False := by
  induction len using Nat.strong_induction_on generalizing s buffer base copied with
  | _ len ih =>
    rw [sysfileWriteLoop]
    by_cases hlen : len = 0
    · rw [dif_pos hlen]
      exact ⟨0, rfl, taken_zero k base s⟩
    rw [dif_neg hlen]
    by_cases hcheck : check base (min iobufSize len) false = true
    swap
    · rw [if_neg hcheck]
      exact ⟨0, rfl, taken_zero k base s⟩
    rw [if_pos hcheck, get_bind_run]
    have hchunk := fileIo_chunk hpos k (memcpy buffer 0 s.mem base (min iobufSize len))
      (min iobufSize len) true
    rw [← fileWrite_eq hwrite] at hchunk
    cases hrun : (fileWrite k (memcpy buffer 0 s.mem base (min iobufSize len))
        (min iobufSize len)).run s with
    | ok r t =>
      rw [hrun] at hchunk
      have hle : r.alen ≤ len := hchunk.le.trans (min_le_right _ _)
      rw [bind_of_ok hrun, assert_bind_run hle]
      by_cases hstop : r.ret ≠ none ∨ r.alen = 0
      · rw [dif_pos hstop]
        exact ⟨r.alen, rfl, hchunk.taken (taken_zero ..)⟩
      · rw [dif_neg hstop]
        have halen : r.alen ≠ 0 := fun hzero ↦ hstop (.inr hzero)
        refine (ih (len - r.alen) (by omega) (hchunk.writable.trans hwrite)
          (hchunk.off hpos)).imp ?_ fun _ _ h ↦ h
        rintro r' u ⟨n, hcopied, htaken⟩
        exact ⟨r.alen + n, by rw [hcopied, Nat.add_assoc], hchunk.taken htaken⟩
    | error e t =>
      rw [hrun] at hchunk
      exact hchunk.elim
    | panic =>
      rw [bind_of_panic hrun]
      trivial

end Write

/-! ## The calls -/

section Exact

variable {s t : Sys} {n : ℕ}

/-- What is copied fits an `int`. -/
theorem bmod_of_inside {p : ℤ} (h : n ≠ 0 → 0 ≤ p ∧ p + n ≤ sfsMaxFileSize) :
    (n : ℤ).bmod (2 ^ 32) = n := by
  by_cases hn : n = 0
  · rw [hn]
    rfl
  · have hin := h hn
    rw [sfsMaxFileSize_eq] at hin
    exact Int.bmod_eq_of_le (by omega) (by omega)

/-- How a call ends whose loop has copied `n` bytes. -/
theorem sysfileOut_run {p : ℤ} (h : n ≠ 0 → 0 ≤ p ∧ p + n ≤ sfsMaxFileSize) (ret : Option Errno)
    (t : Sys) : (sysfileOut (ret, n)).run t = .ok (n : ℤ) t ∨
      n = 0 ∧ ∃ e, ret = some e ∧ (sysfileOut (ret, n)).run t = .error e t := by
  rw [sysfileOut]
  by_cases hn : n ≠ 0
  · left
    rw [if_pos hn, run_pure, bmod_of_inside h]
  · rw [if_neg hn]
    have hzero : n = 0 := not_not.mp hn
    cases ret with
    | none =>
      left
      rw [hzero]
      rfl
    | some e => exact .inr ⟨hzero, e, rfl, rfl⟩

/-- A call that fails and leaves the descriptor alone. -/
theorem readExact_of_error {k base : ℕ} {e : Errno} (h : t.pos = s.pos) :
    ReadExact k base s (.error e t) where
  ok _ _ hok := by cases hok
  error _ _ herr := by
    cases herr
    exact h

theorem writeExact_of_error {k base : ℕ} {e : Errno} (h : t.pos = s.pos) :
    WriteExact k base s (.error e t) where
  ok _ _ hok := by cases hok
  error _ _ herr := by
    cases herr
    exact h

theorem readExact_of_delivered {k base : ℕ} {l : List UInt8} (h : Delivered k base s l t) :
    ReadExact k base s (.ok (l.length : ℤ) t) where
  ok _ _ hok := by
    cases hok
    exact ⟨h.pos, l, rfl, h.moved, h.mem⟩
  error _ _ herr := by cases herr

theorem writeExact_of_taken {k base : ℕ} (h : Taken k base s n t) :
    WriteExact k base s (.ok (n : ℤ) t) where
  ok _ _ hok := by
    cases hok
    exact ⟨h.pos, n, rfl, h.moved, h.mem⟩
  error _ _ herr := by cases herr

theorem readExact_panic (k base : ℕ) (s : Sys) : ReadExact k base s .panic where
  ok _ _ hok := by cases hok
  error _ _ herr := by cases herr

theorem writeExact_panic (k base : ℕ) (s : Sys) : WriteExact k base s .panic where
  ok _ _ hok := by cases hok
  error _ _ herr := by cases herr

/-- `sysfile_write` moves the position by what it returns. -/
theorem sysfileWrite_exact (hpos : toOff s.pos = s.pos) (check : ℕ → ℕ → Bool → Bool) (k : ℕ)
    (buffer : Option Bytes) (base len : ℕ) :
    WriteExact k base s ((sysfileWrite check k buffer base len).run s) := by
  rw [sysfileWrite.eq_def]
  by_cases hlen : len = 0
  · rw [if_pos hlen, run_pure]
    exact writeExact_of_taken (taken_zero k base s)
  rw [if_neg hlen, get_bind_run]
  by_cases hwrite : s.writable = false
  · rw [if_pos hwrite, run_fail]
    exact writeExact_of_error rfl
  rw [if_neg hwrite]
  cases buffer with
  | none => exact writeExact_of_error rfl
  | some buffer =>
    have hloop : ((sysfileWriteLoop check k buffer base len 0).run s).Sat
        (fun r t ↦ ∃ n, r.2 = 0 + n ∧ Taken k base s n t) fun _ _ ↦ False :=
      sysfileWriteLoop_taken (Bool.not_eq_false _ ▸ hwrite) hpos
    dsimp only
    cases hrun : (sysfileWriteLoop check k buffer base len 0).run s with
    | ok r t =>
      rw [hrun] at hloop
      obtain ⟨ret, copied⟩ := r
      obtain ⟨n, hn, htaken⟩ := hloop
      rw [Nat.zero_add] at hn
      dsimp only at hn
      rw [bind_of_ok hrun, hn]
      rcases sysfileOut_run htaken.inside ret t with hout | ⟨hzero, e, -, hout⟩
      · rw [hout]
        exact writeExact_of_taken htaken
      · rw [hout]
        refine writeExact_of_error ?_
        rw [htaken.pos, hzero, Nat.cast_zero, add_zero]
    | error e t =>
      rw [hrun] at hloop
      exact hloop.elim
    | panic =>
      rw [bind_of_panic hrun]
      exact writeExact_panic k base s

/-- `sysfile_read` does so exactly when `copy_to_user` refuses no chunk. -/
theorem sysfileRead_exact_iff (hpos : toOff s.pos = s.pos) (check : ℕ → ℕ → Bool → Bool) (k : ℕ)
    (buffer : Option Bytes) (base len : ℕ) :
    ReadExact k base s ((sysfileRead check k buffer base len).run s) ↔
      ¬(s.readable = true ∧ ∃ b, buffer = some b ∧ CopyFails check k s b base len) := by
  rw [sysfileRead.eq_def]
  by_cases hlen : len = 0
  · rw [if_pos hlen, run_pure]
    refine ⟨fun _ ↦ ?_, fun _ ↦ readExact_of_delivered (delivered_nil k base s)⟩
    rintro ⟨-, b, -, hfail⟩
    cases hfail with
    | here hne => exact hne hlen
    | later hne => exact hne hlen
  rw [if_neg hlen, get_bind_run]
  by_cases hread : s.readable = false
  · rw [if_pos hread, run_fail]
    refine ⟨fun _ hc ↦ ?_, fun _ ↦ readExact_of_error rfl⟩
    rw [hread] at hc
    cases hc.1
  rw [if_neg hread]
  have hread' : s.readable = true := Bool.not_eq_false _ ▸ hread
  cases buffer with
  | none =>
    refine ⟨fun _ hc ↦ ?_, fun _ ↦ readExact_of_error rfl⟩
    obtain ⟨-, b, hb, -⟩ := hc
    cases hb
  | some buffer =>
    dsimp only
    by_cases hfail : CopyFails check k s buffer base len
    · refine ⟨fun hexact ↦ ?_, fun hno ↦ absurd ⟨hread', buffer, rfl, hfail⟩ hno⟩
      -- the position has moved past what was copied
      obtain ⟨e, n, t, hrun, hlt, hlow, hmax⟩ :=
        sysfileReadLoop_refused 0 hread' hpos hfail
      rw [Nat.zero_add] at hrun
      rw [bind_of_ok hrun] at hexact
      rcases sysfileOut_run (fun _ ↦ ⟨hlow, hmax⟩) (some e) t with hout | ⟨-, e', -, hout⟩
      · have hok := (hexact.ok _ _ hout).1
        omega
      · have herr := hexact.error _ _ hout
        omega
    · have hloop := sysfileReadLoop_delivered 0 hread' hpos hfail
      refine ⟨fun _ hc ↦ ?_, fun _ ↦ ?_⟩
      · obtain ⟨-, b, hb, hc⟩ := hc
        obtain rfl := Option.some.inj hb
        exact hfail hc
      cases hrun : (sysfileReadLoop check k buffer base len 0).run s with
      | ok r t =>
        rw [hrun] at hloop
        obtain ⟨ret, copied⟩ := r
        obtain ⟨l, hn, hdel⟩ := hloop
        rw [Nat.zero_add] at hn
        dsimp only at hn
        rw [bind_of_ok hrun, hn]
        have hinside : l.length ≠ 0 → 0 ≤ s.pos ∧ s.pos + l.length ≤ sfsMaxFileSize := fun hne ↦
          hdel.inside fun hnil ↦ hne (by rw [hnil, List.length_nil])
        rcases sysfileOut_run hinside ret t with hout | ⟨hzero, e, -, hout⟩
        · rw [hout]
          exact readExact_of_delivered hdel
        · rw [hout]
          refine readExact_of_error ?_
          rw [hdel.pos, hzero, Nat.cast_zero, add_zero]
      | error e t =>
        rw [hrun] at hloop
        exact hloop.elim
      | panic =>
        rw [bind_of_panic hrun]
        exact readExact_panic k base s

end Exact

/-! ## The contents of the file -/

section Contents

variable {s : Sys} {k base len copied p n : ℕ} {buffer : Bytes} {sin : SfsInode}
  {data : List UInt8} {check : ℕ → ℕ → Bool → Bool}

theorem noWholeBlock_mono {a b a' b' : ℕ} (h : NoWholeBlock a b) (ha : a ≤ a') (hb : b' ≤ b) :
    NoWholeBlock a' b' := by
  rw [NoWholeBlock] at h ⊢
  omega

/-- A read in two parts. -/
theorem splice_read_append (data : List UInt8) (p : ℕ) {m len : ℕ} (h : m ≤ len) :
    Splice.read data p len = Splice.read data p m ++
      Splice.read data (p + (Splice.read data p m).length)
        (len - (Splice.read data p m).length) := by
  have hlen : (Splice.read data p m).length ≤ m := by
    rw [Splice.length_read]
    exact min_le_left _ _
  have htake : Splice.read data p m = (data.drop p).take (Splice.read data p m).length := by
    rw [Splice.read, List.length_take, ← List.take_take, List.take_length]
  conv_lhs => rw [Splice.read, ← Nat.add_sub_cancel' (hlen.trans h), List.take_add, ← htake,
    List.drop_drop]
  rfl

/-- One chunk of a read that contains no whole block. -/
theorem fileRead_contents (buffer : Bytes) (h : s.sfs.FileRep k sin data)
    (hread : s.readable = true) (hpos : s.pos = p) (hlegal : p + len ≤ 4096 * 1036)
    (hno : NoWholeBlock p (min (p + len) data.length)) :
    ∃ r, (fileRead k buffer len).run s =
        .ok r { s with pos := s.pos + (Splice.read data p len).length } ∧
      r.ret = none ∧ r.alen = (Splice.read data p len).length ∧
      toList r.buf r.alen = Splice.read data p len := by
  have hexec : ((FileOp.read buffer p len).exec k).run s.sfs =
      .ok ((FileOp.read buffer p len).reply data) s.sfs := exec_read h hlegal hno
  have hio : (sfsIoNolock k buffer p len false).run s.sfs =
      .ok ⟨none, min len (data.length - p),
        memcpy buffer 0 (s.sfs.fileByte sin.din) p (min len (data.length - p))⟩ s.sfs :=
    sfsIoNolock_read h hlegal hno
  rw [FileOp.exec, bind_of_ok hio, run_pure, FileOp.reply] at hexec
  have hreply := (Outcome.ok.inj hexec).1
  have hlen : min len (data.length - p) = (Splice.read data p len).length :=
    (Splice.length_read data p len).symm
  refine ⟨_, ?_, rfl, hlen, congrArg FileReply.data hreply⟩
  rw [← hpos] at hio
  rw [fileRead_eq hread, fileIo_run (by rw [hpos]; exact toOff_of_lt (by omega)) hio, ← hlen]

/-- The loop of `sysfile_read` on a transfer that contains no whole block. -/
theorem sysfileReadLoop_contents (copied : ℕ) (h : s.sfs.FileRep k sin data)
    (hread : s.readable = true) (hpos : s.pos = p) (hlegal : p + len ≤ 4096 * 1036)
    (hno : NoWholeBlock p (min (p + len) data.length))
    (hgo : ¬CopyFails check k s buffer base len) :
    ∃ t, (sysfileReadLoop check k buffer base len copied).run s =
        .ok (none, copied + (Splice.read data p len).length) t ∧
      t.sfs = s.sfs ∧ t.readable = s.readable ∧
      t.mem = memcpy s.mem base (ofList (Splice.read data p len)) 0
        (Splice.read data p len).length := by
  induction len using Nat.strong_induction_on generalizing s buffer base copied p with
  | _ len ih =>
    by_cases hlen : len = 0
    · have hnil : Splice.read data p len = [] := by rw [hlen, Splice.read, List.take_zero]
      rw [sysfileReadLoop, dif_pos hlen, hnil]
      exact ⟨s, rfl, rfl, rfl, by rw [List.length_nil, memcpy_zero_len]⟩
    have hmin : min iobufSize len ≤ len := min_le_right _ _
    have hnoChunk : NoWholeBlock p (min (p + min iobufSize len) data.length) :=
      noWholeBlock_mono hno (le_refl p) (by omega)
    obtain ⟨r, hrun, hret, halen, hbytes⟩ :=
      fileRead_contents buffer h hread hpos (by omega) hnoChunk
    have hsplit := splice_read_append data p hmin
    rw [← halen] at hsplit
    have hle : r.alen ≤ len := by
      rw [halen, Splice.length_read]
      exact (min_le_left _ _).trans hmin
    by_cases hzero : r.alen = 0
    · -- The end of the file: there is nothing left to read.
      have hnil : Splice.read data p len = [] := by
        have hempty : data.length - p = 0 := by
          rw [halen, Splice.length_read, iobufSize] at hzero
          omega
        rw [← List.length_eq_zero_iff, Splice.length_read, hempty, Nat.min_zero]
      rw [sysfileReadLoop, dif_neg hlen, bind_of_ok hrun, dif_pos hzero, hnil, hret]
      exact ⟨_, rfl, rfl, rfl, by rw [List.length_nil, memcpy_zero_len]⟩
    -- the user's memory takes the chunk, or `CopyFails` would hold
    have hcheck : check base r.alen true = true := by
      by_contra hfail
      exact hgo (.here hlen hrun hzero hfail)
    rw [sysfileReadLoop, dif_neg hlen, bind_of_ok hrun, dif_neg hzero, if_pos hcheck,
      modify_bind_run, assert_bind_run hle, if_pos hret]
    -- the rest of the transfer starts behind this chunk
    have hrest : ¬CopyFails check k { s with
        pos := s.pos + (Splice.read data p (min iobufSize len)).length
        mem := memcpy s.mem base r.buf 0 r.alen } r.buf (base + r.alen) (len - r.alen) :=
      fun hfail ↦ hgo (.later hlen hrun hzero hcheck hret hfail)
    have hnoRest : NoWholeBlock (p + r.alen) (min (p + r.alen + (len - r.alen)) data.length) :=
      noWholeBlock_mono hno (by omega) (by omega)
    obtain ⟨t, hloop, hsfs, hr, hmem⟩ := ih (len - r.alen) (by omega) (copied + r.alen)
      (s := { s with
        pos := s.pos + (Splice.read data p (min iobufSize len)).length
        mem := memcpy s.mem base r.buf 0 r.alen }) h hread
      (by rw [hpos, halen, Nat.cast_add]) (by omega) hnoRest hrest
    refine ⟨t, ?_, hsfs, hr, ?_⟩
    · rw [hloop, hsplit, List.length_append, ← halen, Nat.add_assoc]
    · rw [hmem, hsplit, ← hbytes, memcpy_toList_append]

/-- A write in two parts. -/
theorem splice_write_append {data : List UInt8} {p : ℕ} (h : p ≤ data.length)
    (xs ys : List UInt8) :
    Splice.write (Splice.write data p xs) (p + xs.length) ys = Splice.write data p (xs ++ ys) := by
  have hlen := Splice.length_write h xs
  have hle : p + xs.length ≤ (Splice.write data p xs).length := by omega
  refine List.ext_getElem? fun i ↦ ?_
  rw [Splice.getElem?_write hle, Splice.getElem?_write h, Splice.getElem?_write h,
    List.length_append, List.getElem?_append]
  by_cases hlow : i < p
  · rw [if_neg (by omega), if_neg (by omega), if_neg (by omega)]
  by_cases hmid : i < p + xs.length
  · rw [if_neg (by omega), if_pos (by omega), if_pos (by omega), if_pos (by omega)]
  by_cases hhigh : i < p + xs.length + ys.length
  · rw [if_pos (by omega), if_pos (by omega), if_neg (by omega), Nat.sub_add_eq]
  · rw [if_neg (by omega), if_neg (by omega), if_neg (by omega)]

/-- The loop of `sysfile_write` on a transfer that contains no whole block, with blocks enough and
the memory of the user readable. -/
theorem sysfileWriteLoop_contents (copied : ℕ) (buffer : Bytes) (h : s.sfs.FileRep k sin data)
    (hwrite : s.writable = true) (hpos : s.pos = p) (hoff : p ≤ data.length)
    (hlegal : p + len ≤ 4096 * 1036)
    (hno : NoWholeBlock p (p + len)) (hn : SfsFs.blocksFor (max data.length (p + len)) ≤ n)
    (hroom : SfsFs.growCost sin.din n ≤ s.sfs.freemap.freeCount)
    (hcheck : ∀ a m, base ≤ a → a + m ≤ base + len → check a m false = true) :
    ∃ t sin', (sysfileWriteLoop check k buffer base len copied).run s =
        .ok (none, copied + len) t ∧
      t.sfs.FileRep k sin' (Splice.write data p (toList (fun i ↦ s.mem (base + i)) len)) := by
  induction len using Nat.strong_induction_on generalizing s buffer base copied p data sin with
  | _ len ih =>
    by_cases hlen : len = 0
    · have hid : Splice.write data p (toList (fun i ↦ s.mem (base + i)) len) = data := by
        rw [hlen, toList, List.range_zero, List.map_nil, Splice.write, List.append_nil,
          List.length_nil, Nat.add_zero, List.take_append_drop]
      rw [sysfileWriteLoop, dif_pos hlen, hid, hlen]
      exact ⟨s, sin, rfl, h⟩
    generalize hm : min iobufSize len = m
    have hmin : m ≤ len := hm ▸ min_le_right _ _
    have hmpos : 0 < m := by
      rw [← hm, iobufSize]
      omega
    -- this chunk is written; the rest is a write at its end
    generalize hxs : toList (fun i ↦ s.mem (base + i)) m = xs
    have hxlen : xs.length = m := by rw [← hxs, length_toList]
    have hbuf : ∀ i < xs.length, memcpy buffer 0 s.mem base m i = ofList xs i := by
      intro i hi
      rw [hxlen] at hi
      rw [memcpy_of_mem (Nat.zero_le i) (by omega), Nat.sub_zero, ← hxs, ofList,
        List.getD_eq_getElem?_getD, getElem?_toList, if_pos hi, Option.getD_some]
    have hsize : (Splice.write data p xs).length = max data.length (p + m) := by
      rw [Splice.length_write hoff, hxlen]
    obtain ⟨t, sin', hio, hrep, hroom'⟩ := sfsIoNolock_write h hbuf (by omega)
      ⟨hoff, by omega⟩ (noWholeBlock_mono hno (le_refl p) (by omega))
      ((by rw [hsize, SfsFs.blocksFor, SfsFs.blocksFor]; omega :
        SfsFs.blocksFor (Splice.write data p xs).length ≤
          SfsFs.blocksFor (max data.length (p + len))).trans hn) hroom
    rw [← hpos, hxlen] at hio
    have hrun := fileIo_run (by rw [hpos]; exact toOff_of_lt (by omega)) hio
    rw [← fileWrite_eq hwrite] at hrun
    have hstop : ¬((none : Option Errno) ≠ none ∨ m = 0) := by
      rintro (hne | hzero)
      · exact hne rfl
      · omega
    rw [sysfileWriteLoop, dif_neg hlen, hm, if_pos (hcheck base m (le_refl _) (by omega)),
      get_bind_run, bind_of_ok hrun, assert_bind_run hmin, dif_neg hstop]
    dsimp only
    have hcheck' : ∀ a m', base + m ≤ a → a + m' ≤ base + m + (len - m) →
        check a m' false = true := fun a m' ha hle ↦ hcheck a m' (by omega) (by omega)
    obtain ⟨u, sin'', hloop, hfinal⟩ := ih (len - m) (by omega) (copied + m)
      (memcpy buffer 0 s.mem base m) (s := { s with sfs := t, pos := s.pos + m }) (p := p + m) hrep
      hwrite (by rw [hpos, Nat.cast_add]) (by rw [hsize]; exact le_max_right _ _) (by omega)
      (noWholeBlock_mono hno (by omega) (by omega))
      ((by rw [hsize, SfsFs.blocksFor, SfsFs.blocksFor]; omega :
        SfsFs.blocksFor (max (Splice.write data p xs).length (p + m + (len - m))) ≤
          SfsFs.blocksFor (max data.length (p + len))).trans hn) hroom' hcheck'
    refine ⟨u, sin'', ?_, ?_⟩
    · rw [hloop, Nat.add_assoc, Nat.add_sub_cancel' hmin]
    · have hsplit : toList (fun i ↦ s.mem (base + i)) len =
          xs ++ toList (fun i ↦ s.mem (base + m + i)) (len - m) := by
        rw [← hxs, ← Nat.add_sub_cancel' hmin, toList_add, Nat.add_sub_cancel_left]
        simp only [Nat.add_assoc]
      rw [hsplit, ← splice_write_append hoff, hxlen]
      exact hfinal

/-- A read that contains no whole block gives the user the bytes of the file. -/
theorem sysfileRead_contents (h : s.sfs.FileRep k sin data) (hread : s.readable = true)
    (hpos : s.pos = p) (hlegal : p + len ≤ 4096 * 1036)
    (hno : NoWholeBlock p (min (p + len) data.length))
    (hgo : ¬CopyFails check k s buffer base len) :
    ∃ t, (sysfileRead check k (some buffer) base len).run s =
        .ok ((Splice.read data p len).length : ℤ) t ∧
      t.sfs = s.sfs ∧ t.readable = s.readable ∧
      t.mem = memcpy s.mem base (ofList (Splice.read data p len)) 0
        (Splice.read data p len).length := by
  rw [sysfileRead]
  by_cases hlen : len = 0
  · have hnil : Splice.read data p len = [] := by rw [hlen, Splice.read, List.take_zero]
    rw [if_pos hlen, hnil]
    exact ⟨s, rfl, rfl, rfl, by rw [List.length_nil, memcpy_zero_len]⟩
  obtain ⟨t, hloop, hsfs, hr, hmem⟩ := sysfileReadLoop_contents 0 h hread hpos hlegal hno hgo
  rw [Nat.zero_add] at hloop
  refine ⟨t, ?_, hsfs, hr, hmem⟩
  have hle : (Splice.read data p len).length ≤ len := by
    rw [Splice.length_read]
    exact min_le_left _ _
  have hinside : (Splice.read data p len).length ≠ 0 →
      0 ≤ (p : ℤ) ∧ (p : ℤ) + (Splice.read data p len).length ≤ sfsMaxFileSize := fun _ ↦ by
    rw [sfsMaxFileSize_eq]
    omega
  rw [if_neg hlen, get_bind_run, if_neg (by rw [hread]; rintro ⟨⟩)]
  refine (bind_of_ok hloop _).trans ?_
  rcases sysfileOut_run hinside none t with hout | ⟨-, e, he, -⟩
  · exact hout
  · cases he

/-- A write that contains no whole block gives the file the bytes of the user. -/
theorem sysfileWrite_contents (h : s.sfs.FileRep k sin data) (hwrite : s.writable = true)
    (hpos : s.pos = p) (hoff : p ≤ data.length) (hlegal : p + len ≤ 4096 * 1036)
    (hno : NoWholeBlock p (p + len))
    (hroom : SfsFs.growCost sin.din (SfsFs.blocksFor (max data.length (p + len))) ≤
      s.sfs.freemap.freeCount)
    (hcheck : ∀ a m, base ≤ a → a + m ≤ base + len → check a m false = true) :
    ∃ t sin', (sysfileWrite check k (some buffer) base len).run s = .ok (len : ℤ) t ∧
      t.sfs.FileRep k sin' (Splice.write data p (toList (fun i ↦ s.mem (base + i)) len)) := by
  obtain ⟨t, sin', hloop, hrep⟩ := sysfileWriteLoop_contents 0 buffer h
    hwrite hpos hoff hlegal hno (le_refl _) hroom hcheck
  rw [Nat.zero_add] at hloop
  rw [sysfileWrite]
  by_cases hlen : len = 0
  · rw [sysfileWriteLoop, dif_pos hlen, run_pure] at hloop
    obtain ⟨-, hst⟩ := Outcome.ok.inj hloop
    rw [if_pos hlen, hlen, run_pure]
    subst hlen
    exact ⟨t, sin', by rw [hst]; rfl, hrep⟩
  refine ⟨t, sin', ?_, hrep⟩
  have hinside : len ≠ 0 → 0 ≤ (p : ℤ) ∧ (p : ℤ) + len ≤ sfsMaxFileSize := fun _ ↦ by
    rw [sfsMaxFileSize_eq]
    omega
  rw [if_neg hlen, get_bind_run, if_neg (by rw [hwrite]; rintro ⟨⟩)]
  refine (bind_of_ok hloop _).trans ?_
  rcases sysfileOut_run hinside none t with hout | ⟨-, e, he, -⟩
  · exact hout
  · cases he

end Contents

/-- Every descriptor, buffer and length. `sysfile_write` always moves the position by what it
returns, and `sysfile_read` does so exactly when `copy_to_user` refuses no chunk that the file has
bytes for. On a file in a consistent state, and when the transfer contains no whole block, what is
moved are the bytes of the file at the old position. -/
theorem sysfileIo_exact_iff {s : Sys} (hpos : toOff s.pos = s.pos)
    (check : ℕ → ℕ → Bool → Bool) (k : ℕ) (buffer : Option Bytes) (base len : ℕ) :
    (ReadExact k base s ((sysfileRead check k buffer base len).run s) ↔
      ¬(s.readable = true ∧ ∃ b, buffer = some b ∧ CopyFails check k s b base len)) ∧
    WriteExact k base s ((sysfileWrite check k buffer base len).run s) ∧
    ∀ (sin : SfsInode) (data : List UInt8) (p : ℕ) (b : Bytes), s.sfs.FileRep k sin data →
      s.pos = p → p + len ≤ 4096 * 1036 → buffer = some b →
      (s.readable = true → NoWholeBlock p (min (p + len) data.length) →
        ¬CopyFails check k s b base len →
        ∃ t, (sysfileRead check k buffer base len).run s =
            .ok ((Splice.read data p len).length : ℤ) t ∧
          t.mem = memcpy s.mem base (ofList (Splice.read data p len)) 0
            (Splice.read data p len).length) ∧
      (s.writable = true → p ≤ data.length → NoWholeBlock p (p + len) →
        SfsFs.growCost sin.din (SfsFs.blocksFor (max data.length (p + len))) ≤
          s.sfs.freemap.freeCount →
        (∀ a m, base ≤ a → a + m ≤ base + len → check a m false = true) →
        ∃ t sin', (sysfileWrite check k buffer base len).run s = .ok (len : ℤ) t ∧
          t.sfs.FileRep k sin' (Splice.write data p (toList (fun i ↦ s.mem (base + i)) len))) := by
  refine ⟨sysfileRead_exact_iff hpos check k buffer base len,
    sysfileWrite_exact hpos check k buffer base len, ?_⟩
  rintro sin data p b h hp hlegal rfl
  refine ⟨fun hread hno hgo ↦ ?_, fun hwrite hoff hno hroom hcheck ↦ ?_⟩
  · obtain ⟨t, hrun, -, -, hmem⟩ := sysfileRead_contents h hread hp hlegal hno hgo
    exact ⟨t, hrun, hmem⟩
  · exact sysfileWrite_contents h hwrite hp hoff hlegal hno hroom hcheck

/-! ## A file of two blocks -/

/-- A descriptor at the start of the file. -/
def sampleSys : Sys := ⟨sampleFs, true, true, 0, zero⟩

/-- Nothing is refused to a user whose memory may be written. -/
theorem not_copyFails_of_true {k base len : ℕ} {s : Sys} {buffer : Bytes} :
    ¬CopyFails (fun _ _ _ ↦ true) k s buffer base len := by
  intro h
  induction h with
  | here _ _ _ hcheck => exact hcheck rfl
  | later _ _ _ _ _ _ ih => exact ih

theorem sysfileIo_exact_iff_sample : ReadExact 3 0 sampleSys
    ((sysfileRead (fun _ _ _ ↦ true) 3 (some zero) 0 10).run sampleSys) := by
  refine (sysfileIo_exact_iff rfl (fun _ _ _ ↦ true) 3 (some zero) 0 10).1.mpr ?_
  rintro ⟨-, b, -, hfail⟩
  exact not_copyFails_of_true hfail

/-- A buffer that the user may not write: the call fails, and the position has moved. -/
theorem sysfileRead_not_exact_sample : ∃ t,
    (sysfileRead (fun _ _ _ ↦ false) 3 (some zero) 0 10).run sampleSys = .error .inval t ∧
      t.pos = 10 ∧ ¬ReadExact 3 0 sampleSys
        ((sysfileRead (fun _ _ _ ↦ false) 3 (some zero) 0 10).run sampleSys) := by
  have hno : NoWholeBlock 0 (min (0 + 10) 8192) := by decide
  have hrep := sampleFs_fileRep
  have hsize := hrep.size
  have hlegal : 0 + 10 ≤ 4096 * 1036 := by norm_num
  have hpos : sampleSys.pos = (0 : ℕ) := rfl
  have hrep' : sampleSys.sfs.FileRep 3 ⟨sampleFile, false, 1, 1, 1⟩
    (sampleFs.contents sampleFile) := hrep
  obtain ⟨r, hrun, hret, halen, -⟩ := fileRead_contents zero hrep' rfl hpos hlegal
    (by rw [← hsize]; exact hno)
  rw [Splice.length_read, ← hsize] at halen hrun
  have hten : r.alen = 10 := halen
  have hne : r.alen ≠ 0 := by rw [hten]; decide
  have hloop : (sysfileReadLoop (fun _ _ _ ↦ false) 3 zero 0 10 0).run sampleSys =
      .ok (some .inval, 0) { sampleSys with pos := 10 } := by
    rw [sysfileReadLoop, dif_neg (by decide)]
    refine (bind_of_ok hrun _).trans ?_
    rw [dif_neg hne, if_neg (by rintro ⟨⟩), hret, run_pure]
    rfl
  have hcall : (sysfileRead (fun _ _ _ ↦ false) 3 (some zero) 0 10).run sampleSys =
      .error .inval { sampleSys with pos := 10 } := by
    rw [sysfileRead, if_neg (by decide), get_bind_run, if_neg (by rintro ⟨⟩)]
    exact bind_of_ok hloop _
  refine ⟨_, hcall, rfl, fun hexact ↦ ?_⟩
  have hsame := hexact.error _ _ hcall
  exact absurd hsame (by decide)

end Sysfile

end Ucore
