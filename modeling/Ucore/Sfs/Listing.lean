import Ucore.Sfs.Dirent
import Ucore.Sfs.FileSpec

/-!
# Listing a directory

`file_getdirentry` of `kern/fs/file.c` on a directory, with `sfs_getdirentry` and its scan of the
slots. A caller starts at offset 0 and calls until `-E_NOENT`. The offset counts the entries that
have been handed out, the scan passes over the slots: the main result, `listing_iff`, is that the
names handed out are those of the used slots in order.
-/

namespace Ucore

open Bytes Prog

/-! ## The routines -/

/-- The loop of `sfs_getdirentry_sub_nolock` over the `n` slots from `i` on. -/
def sfsGetdirentrySubLoop (k i slot : ℕ) : ℕ → Prog Errno SfsFs SfsDiskEntry
  | 0 => fail .noent
  | n + 1 => do
    let entry ← sfsDirentReadNolock k i
    if entry.ino ≠ 0 then
      if slot = 0 then return entry else sfsGetdirentrySubLoop k (i + 1) (slot - 1) n
    else
      sfsGetdirentrySubLoop k (i + 1) slot n

def sfsGetdirentrySubNolock (k slot : ℕ) : Prog Errno SfsFs SfsDiskEntry := do
  let sin ← getSin k
  sfsGetdirentrySubLoop k 0 slot sin.din.blocks

/-- `struct dirent` of a caller. -/
structure Dirent where
  offset : ℤ
  name : Bytes

/-- `sfs_getdirentry`, when `kmalloc` gives memory or not, with an `iobuf` of `sfs_dentry_size`
bytes at `name`: the bytes there afterwards. The slot is an `int` that is compared as an unsigned
number. -/
def sfsGetdirentry (give : Bool) (k : ℕ) (offset : ℤ) (name : Bytes) : Prog Errno SfsFs Bytes :=
  if give = false then
    fail .noMem
  else if offset < 0 ∨ offset % SfsDiskEntry.nameSize ≠ 0 then
    fail .inval
  else do
    let sin ← getSin k
    let slot := (offset / SfsDiskEntry.nameSize).toNat % 2 ^ 32
    if sin.din.blocks < slot then
      fail .noent
    else do
      let entry ← sfsGetdirentrySubNolock k slot
      return memcpy name 0 entry.name 0 SfsDiskEntry.nameSize

/-- `file_getdirentry` on a descriptor of inode `k`. The whole `iobuf` has been used. -/
def fileGetdirentry (give : Bool) (k : ℕ) (direntp : Dirent) : Prog Errno SfsFs Dirent := do
  let name ← sfsGetdirentry give k direntp.offset direntp.name
  return ⟨direntp.offset + SfsDiskEntry.nameSize, name⟩

/-- Calls of `file_getdirentry` up to `-E_NOENT`, and the names that they hand out. A call that
finds no memory is made again. -/
inductive Listing (k : ℕ) : SfsFs → Dirent → List (List UInt8) → Prop
  | done {s s' : SfsFs} {d : Dirent} (give : Bool)
    (h : (fileGetdirentry give k d).run s = .error .noent s') : Listing k s d []
  | next {s s' : SfsFs} {d d' : Dirent} {names : List (List UInt8)} (give : Bool)
    (h : (fileGetdirentry give k d).run s = .ok d' s') (hrest : Listing k s' d' names) :
    Listing k s d (d'.name.toList SfsDiskEntry.nameSize :: names)
  | again {s s' : SfsFs} {d : Dirent} {names : List (List UInt8)} (give : Bool)
    (h : (fileGetdirentry give k d).run s = .error .noMem s') (hrest : Listing k s' d names) :
    Listing k s d names

namespace SfsFs

/-! ## The slots of a directory -/

/-- The entry in slot `i`. -/
def dirent (s : SfsFs) (din : SfsDiskInode) (i : ℕ) : SfsDiskEntry :=
  (SfsDiskEntry.ofBytes (memcpy zero 0 (s.dev.blk (s.bmap din i)) 0 SfsDiskEntry.sizeof)).terminate

/-- Of the `n` slots from `i` on, those with an entry. -/
def usedFrom (s : SfsFs) (din : SfsDiskInode) (i n : ℕ) : List ℕ :=
  (List.range' i n).filter fun i ↦ (s.dirent din i).ino ≠ 0

/-- The slots with an entry, in order. -/
def usedSlots (s : SfsFs) (din : SfsDiskInode) : List ℕ := s.usedFrom din 0 din.blocks

/-- The name in slot `i`, with what lies behind its end. -/
def nameAt (s : SfsFs) (din : SfsDiskInode) (i : ℕ) : List UInt8 :=
  (s.dirent din i).name.toList SfsDiskEntry.nameSize

section Listing

variable {s : SfsFs} {k i slot : ℕ} {sin : SfsInode}

theorem usedFrom_succ (s : SfsFs) (din : SfsDiskInode) (i n : ℕ) : s.usedFrom din i (n + 1) =
    if (s.dirent din i).ino ≠ 0 then i :: s.usedFrom din (i + 1) n
    else s.usedFrom din (i + 1) n := by
  rw [usedFrom, List.range'_succ, List.filter_cons]
  simp only [decide_eq_true_eq, usedFrom]

theorem length_usedSlots_le (s : SfsFs) (din : SfsDiskInode) :
    (s.usedSlots din).length ≤ din.blocks := by
  have hle := List.length_filter_le (fun i ↦ decide ((s.dirent din i).ino ≠ 0))
    (List.range' 0 din.blocks)
  rwa [List.length_range'] at hle

/-- The scan finds the entry with that many used slots in front of it. -/
theorem sfsGetdirentrySubLoop_eq (h : s.FileOk k sin) (htype : sin.din.type = sfsTypeDir) {n : ℕ}
    (hn : i + n ≤ sin.din.blocks) : (sfsGetdirentrySubLoop k i slot n).run s =
      match (s.usedFrom sin.din i n)[slot]? with
      | some j => .ok (s.dirent sin.din j) s
      | none => .error .noent s := by
  induction n generalizing i slot with
  | zero => rfl
  | succ n ih =>
    have hi : i < sin.din.blocks := by omega
    have hread := sfsDirentReadNolock_eq h.ok h.cached htype hi (h.mapped.used i hi)
      h.mapped.indirect
    have hrest : i + 1 + n ≤ sin.din.blocks := by omega
    rw [sfsGetdirentrySubLoop, bind_of_ok hread, usedFrom_succ]
    by_cases hino : (s.dirent sin.din i).ino ≠ 0
    · rw [if_pos hino]
      refine (congrArg (fun m : Prog Errno SfsFs SfsDiskEntry ↦ m.run s) (if_pos hino)).trans ?_
      cases slot with
      | zero => rfl
      | succ slot =>
        rw [if_neg (Nat.succ_ne_zero slot), Nat.add_sub_cancel, ih hrest, List.getElem?_cons_succ]
    · rw [if_neg hino]
      refine (congrArg (fun m : Prog Errno SfsFs SfsDiskEntry ↦ m.run s) (if_neg hino)).trans ?_
      exact ih hrest

theorem toList_memcpy (name b : Bytes) (n : ℕ) : (memcpy name 0 b 0 n).toList n = b.toList n := by
  rw [toList, toList]
  refine List.map_congr_left fun i hi ↦ ?_
  have hlt : i < 0 + n := by
    rw [Nat.zero_add]
    exact List.mem_range.mp hi
  rw [memcpy_of_mem (Nat.zero_le i) hlt, Nat.sub_zero, Nat.zero_add]

/-- A call at the offset of entry `m`. -/
theorem fileGetdirentry_eq (h : s.FileOk k sin) (htype : sin.din.type = sfsTypeDir) {m : ℕ}
    (hm : m ≤ (s.usedSlots sin.din).length) (name : Bytes) :
    (fileGetdirentry true k ⟨m * SfsDiskEntry.nameSize, name⟩).run s =
      match (s.usedSlots sin.din)[m]? with
      | some j => .ok ⟨(m + 1 : ℕ) * SfsDiskEntry.nameSize,
          memcpy name 0 (s.dirent sin.din j).name 0 SfsDiskEntry.nameSize⟩ s
      | none => .error .noent s := by
  have hblocks := h.mapped.blocks_le
  have hle := hm.trans (length_usedSlots_le s sin.din)
  have hsize : (SfsDiskEntry.nameSize : ℤ) = 256 := rfl
  have hoff : ¬((m : ℤ) * SfsDiskEntry.nameSize < 0 ∨
      (m : ℤ) * SfsDiskEntry.nameSize % SfsDiskEntry.nameSize ≠ 0) := by
    rw [hsize]
    omega
  have hslot : ((m : ℤ) * SfsDiskEntry.nameSize / SfsDiskEntry.nameSize).toNat % 2 ^ 32 = m := by
    rw [hsize]
    omega
  have hscan : (sfsGetdirentrySubNolock k m).run s = _ :=
    (bind_of_ok (getSin_eq h.cached) _).trans
      (@sfsGetdirentrySubLoop_eq s k 0 m sin h htype _ (Nat.zero_add _).le)
  have hcall : (sfsGetdirentry true k (m * SfsDiskEntry.nameSize) name).run s =
      match (s.usedSlots sin.din)[m]? with
      | some j => .ok (memcpy name 0 (s.dirent sin.din j).name 0 SfsDiskEntry.nameSize) s
      | none => .error .noent s := by
    rw [sfsGetdirentry, if_neg Bool.true_eq_false.mp, if_neg hoff, bind_of_ok (getSin_eq h.cached)]
    dsimp only
    rw [hslot, if_neg hle.not_gt]
    change _ = match (s.usedFrom sin.din 0 sin.din.blocks)[m]? with
      | some j => _
      | none => _
    cases hj : (s.usedFrom sin.din 0 sin.din.blocks)[m]? with
    | none =>
      rw [hj] at hscan
      exact bind_of_error hscan _
    | some j =>
      rw [hj] at hscan
      exact bind_of_ok hscan _
  rw [fileGetdirentry]
  cases hj : (s.usedSlots sin.din)[m]? with
  | none =>
    rw [hj] at hcall
    exact bind_of_error hcall _
  | some j =>
    rw [hj] at hcall
    refine (bind_of_ok hcall _).trans ?_
    rw [run_pure]
    have hnext : (m : ℤ) * SfsDiskEntry.nameSize + SfsDiskEntry.nameSize =
        (m + 1 : ℕ) * SfsDiskEntry.nameSize := by
      push_cast
      ring
    rw [hnext]

/-- Without memory nothing is handed out. -/
theorem fileGetdirentry_noMem (d : Dirent) :
    (fileGetdirentry false k d).run s = .error .noMem s := rfl

/-- Any other result has taken memory. -/
theorem give_eq_true {give : Bool} {d : Dirent} {r : Outcome Errno SfsFs Dirent}
    (hrun : (fileGetdirentry give k d).run s = r) (hr : r ≠ .error .noMem s) : give = true := by
  cases give with
  | true => rfl
  | false => exact absurd ((fileGetdirentry_noMem d).symm.trans hrun).symm hr

/-- From the offset of entry `m` on, the calls hand out the entries from `m` on. -/
theorem eq_drop_of_listing (h : s.FileOk k sin) (htype : sin.din.type = sfsTypeDir) {d : Dirent}
    {names : List (List UInt8)} (hlist : Listing k s d names) {m : ℕ}
    (hm : m ≤ (s.usedSlots sin.din).length) (hd : d.offset = m * SfsDiskEntry.nameSize) :
    names = ((s.usedSlots sin.din).drop m).map (s.nameAt sin.din) := by
  induction hlist generalizing m with
  | @done s s' d give hrun =>
    obtain ⟨offset, name⟩ := d
    obtain rfl : offset = m * SfsDiskEntry.nameSize := hd
    obtain rfl := give_eq_true hrun fun hc ↦ by cases hc
    rw [fileGetdirentry_eq h htype hm] at hrun
    cases hj : (s.usedSlots sin.din)[m]? with
    | none => rw [List.drop_eq_nil_of_le (List.getElem?_eq_none_iff.mp hj), List.map_nil]
    | some j =>
      rw [hj] at hrun
      cases hrun
  | @next s s' d d' names give hrun _ ih =>
    obtain ⟨offset, name⟩ := d
    obtain rfl : offset = m * SfsDiskEntry.nameSize := hd
    obtain rfl := give_eq_true hrun fun hc ↦ by cases hc
    rw [fileGetdirentry_eq h htype hm] at hrun
    cases hj : (s.usedSlots sin.din)[m]? with
    | none =>
      rw [hj] at hrun
      cases hrun
    | some j =>
      rw [hj] at hrun
      obtain ⟨rfl, rfl⟩ := Outcome.ok.inj hrun
      have hlt := (List.getElem?_eq_some_iff.mp hj).1
      rw [ih h hlt rfl, List.drop_eq_getElem_cons hlt, List.map_cons,
        (List.getElem?_eq_some_iff.mp hj).2, toList_memcpy, nameAt]
  | @again s s' d names give hrun _ ih =>
    obtain ⟨offset, name⟩ := d
    obtain rfl : offset = m * SfsDiskEntry.nameSize := hd
    cases give with
    | false =>
      obtain ⟨-, rfl⟩ := Outcome.error.inj ((fileGetdirentry_noMem _).symm.trans hrun)
      exact ih h hm rfl
    | true =>
      rw [fileGetdirentry_eq h htype hm] at hrun
      cases hj : (s.usedSlots sin.din)[m]? with
      | none =>
        rw [hj] at hrun
        cases hrun
      | some j =>
        rw [hj] at hrun
        cases hrun

/-- With memory, the calls come to an end. -/
theorem listing_drop (h : s.FileOk k sin) (htype : sin.din.type = sfsTypeDir) {n : ℕ} (name : Bytes)
    (hn : n ≤ (s.usedSlots sin.din).length) :
    Listing k s ⟨((s.usedSlots sin.din).length - n : ℕ) * SfsDiskEntry.nameSize, name⟩
      (((s.usedSlots sin.din).drop ((s.usedSlots sin.din).length - n)).map (s.nameAt sin.din)) := by
  induction n generalizing name with
  | zero =>
    rw [Nat.sub_zero, List.drop_length, List.map_nil]
    have hcall := fileGetdirentry_eq h htype le_rfl name
    rw [List.getElem?_eq_none le_rfl] at hcall
    exact .done true hcall
  | succ n ih =>
    obtain ⟨m, hm⟩ : ∃ m, m = (s.usedSlots sin.din).length - (n + 1) := ⟨_, rfl⟩
    have hlt : m < (s.usedSlots sin.din).length := by omega
    have hnext : (s.usedSlots sin.din).length - n = m + 1 := by omega
    rw [hnext] at ih
    rw [← hm, List.drop_eq_getElem_cons hlt, List.map_cons]
    have hcall := fileGetdirentry_eq h htype hlt.le name
    rw [List.getElem?_eq_getElem hlt] at hcall
    have hrest := Listing.next true hcall (ih _ (Nat.le_of_succ_le hn))
    rwa [toList_memcpy] at hrest

end Listing

end SfsFs

/-- **Listing a directory is complete.** The calls from offset 0 up to `-E_NOENT` hand out the names
of the used slots, each once and in order, and no others. -/
theorem listing_iff {s : SfsFs} {k : ℕ} {sin : SfsInode} (h : s.FileOk k sin)
    (htype : sin.din.type = sfsTypeDir) (name : Bytes) (names : List (List UInt8)) :
    Listing k s ⟨0, name⟩ names ↔ names = (s.usedSlots sin.din).map (s.nameAt sin.din) := by
  have hzero : ((0 : ℕ) : ℤ) * SfsDiskEntry.nameSize = 0 := by
    rw [Nat.cast_zero, zero_mul]
  constructor
  · intro hlist
    have hnames := SfsFs.eq_drop_of_listing h htype hlist (Nat.zero_le _) hzero.symm
    rwa [List.drop_zero] at hnames
  · rintro rfl
    have hlist := SfsFs.listing_drop h htype name le_rfl
    rwa [Nat.sub_self, List.drop_zero, hzero] at hlist

/-- A directory of three slots, the second of them empty. -/
def listDin : SfsDiskInode := .ofDirect 768 sfsTypeDir 1 [4, 5, 7]

/-- A file system with that directory. -/
def listFs : SfsFs :=
  { sampleFs with
    dev := { sampleFs.dev with
      blk := fun b ↦ if b = 4 then ofList [3, 0, 0, 0, 97]
        else if b = 7 then ofList [6, 0, 0, 0, 98] else zero }
    inodes := fun k ↦ if k = 3 then some ⟨listDin, false, 1, 1, 1⟩ else none }

theorem listFs_fileOk : listFs.FileOk 3 ⟨listDin, false, 1, 1, 1⟩ where
  ok :=
    { faults := sampleFs_ok.faults
      blocks_le := sampleFs_ok.blocks_le
      wf := sampleFs_ok.wf
      blocks_le_nbits := sampleFs_ok.blocks_le_nbits
      unused := sampleFs_ok.unused }
  tail := sampleFs_tailClear
  cached := rfl
  mapped := mapped_ofDirect (by decide) (by
    intro b hb
    fin_cases hb
    · exact sampleFs_used (by decide) (by decide)
    · exact sampleFs_used (by decide) (by decide)
    · exact sampleFs_used (by decide) (by decide)) (by decide) _ _ _

theorem listing_iff_sample : ∃ names, Listing 3 listFs ⟨0, zero⟩ names ∧
    names.map (List.takeWhile (· ≠ 0)) = [[97], [98]] := by
  refine ⟨_, (listing_iff listFs_fileOk rfl zero _).mpr rfl, ?_⟩
  have hslots : listFs.usedSlots listDin = [0, 2] := by decide +kernel
  have hnames : [0, 2].map (listFs.nameAt listDin) = (listFs.usedSlots listDin).map _ :=
    congrArg (List.map _) hslots.symm
  rw [← hnames]
  decide +kernel

end Ucore
