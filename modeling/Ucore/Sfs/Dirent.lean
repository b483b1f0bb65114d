import Ucore.Lib.CString
import Ucore.Sfs.Inode

/-!
# Directories

The part of `kern/fs/sfs/sfs_inode.c` that reads directories: every block of a directory holds one
entry, and a name is looked up by reading them in turn. Names are lists of characters without the
terminating zero. The source has no function that adds or removes an entry, so a directory never
changes.
-/

namespace Ucore

open Bytes Prog

/-- `entry->name[SFS_MAX_FNAME_LEN] = '\0'`. -/
def SfsDiskEntry.terminate (entry : SfsDiskEntry) : SfsDiskEntry :=
  { entry with name := Function.update entry.name sfsMaxFnameLen 0 }

/-- The name of an entry, as `strcmp` sees it. -/
def SfsDiskEntry.str (entry : SfsDiskEntry) : List UInt8 := cstring entry.name SfsDiskEntry.nameSize

def sfsDirentReadNolock (k slot : ℕ) : Prog Errno SfsFs SfsDiskEntry := do
  let sin ← getSin k
  assert (sin.din.type = sfsTypeDir ∧ slot < sin.din.blocks)
  let ino ← sfsBmapLoadNolock k slot
  let inuse ← sfsBlockInuse ino
  assert (inuse = true)
  let entry ← sfsRbuf zero 0 SfsDiskEntry.sizeof ino 0
  return (SfsDiskEntry.ofBytes entry).terminate

/-- The loop of `sfs_dirent_search_nolock` over the `n` slots from `i` on. -/
def sfsDirentSearchLoop (k : ℕ) (name : List UInt8) (i : ℕ) : ℕ → Prog Errno SfsFs (ℕ × ℕ)
  | 0 => fail .noent
  | n + 1 => do
    let entry ← sfsDirentReadNolock k i
    if entry.ino = 0 then sfsDirentSearchLoop k name (i + 1) n
    else if name = entry.str then return (i, entry.ino)
    else sfsDirentSearchLoop k name (i + 1) n

/-- `sfs_dirent_search_nolock`: the slot and the inode number of the entry with that name. No caller
asks for an empty slot. -/
def sfsDirentSearchNolock (k : ℕ) (name : List UInt8) : Prog Errno SfsFs (ℕ × ℕ) := do
  assert (name.length ≤ sfsMaxFnameLen)
  let sin ← getSin k
  sfsDirentSearchLoop k name 0 sin.din.blocks

/-- `sfs_lookup_once`, which leaves the inode it found in memory and returns its number. -/
def sfsLookupOnce (k : ℕ) (name : List UInt8) : Prog Errno SfsFs ℕ := do
  let (_, ino) ← sfsDirentSearchNolock k name
  sfsLoadInode ino
  return ino

section Dirent

variable {s : SfsFs} {k : ℕ} {sin : SfsInode}

/-- Reading a slot whose block is mapped. -/
theorem sfsDirentReadNolock_eq (h : s.Ok) (hk : s.inodes k = some sin)
    (htype : sin.din.type = sfsTypeDir) {i : ℕ} (hi : i < sin.din.blocks)
    (hused : s.Used (s.bmap sin.din i)) (hind : sin.din.indirect ≠ 0 → s.Used sin.din.indirect) :
    (sfsDirentReadNolock k i).run s
      = .ok (SfsDiskEntry.ofBytes
          (memcpy zero 0 (s.dev.blk (s.bmap sin.din i)) 0 SfsDiskEntry.sizeof)).terminate s := by
  have hsize : 0 + SfsDiskEntry.sizeof ≤ 4096 := by
    rw [SfsDiskEntry.sizeof]
    omega
  rw [sfsDirentReadNolock, bind_of_ok (getSin_eq hk), assert_bind_run ⟨htype, hi⟩,
    bind_of_ok (sfsBmapLoadNolock_of_used h hk hi hused hind),
    bind_of_ok (sfsBlockInuse_of_used h hused), assert_bind_run rfl,
    bind_of_ok (sfsRbuf_eq h.toDevOk hused.1 hused.2.1 zero 0 (by omega) hsize), run_pure]

/-- A slot beyond what the block map holds stops the machine. -/
theorem sfsDirentReadNolock_panic (hk : s.inodes k = some sin) {i : ℕ} (hi : 1036 ≤ i) :
    (sfsDirentReadNolock k i).run s = .panic := by
  rw [sfsDirentReadNolock, bind_of_ok (getSin_eq hk)]
  by_cases hslot : sin.din.type = sfsTypeDir ∧ i < sin.din.blocks
  · rw [assert_bind_run hslot, bind_of_panic (sfsBmapLoadNolock_panic_of_full hk hi hslot.2.le)]
  · rw [assert_bind_run_neg hslot]

/-- The search finds the first entry with the name, given what reading the slots gives. -/
theorem sfsDirentSearchLoop_eq {name : List UInt8} {entry : ℕ → SfsDiskEntry} {i j : ℕ} (n : ℕ)
    (hread : ∀ m, i ≤ m → m ≤ j → (sfsDirentReadNolock k m).run s = .ok (entry m) s)
    (hij : i ≤ j) (hn : j < i + n) (hbefore : ∀ m, i ≤ m → m < j → (entry m).str ≠ name)
    (hname : (entry j).str = name) (hino : (entry j).ino ≠ 0) :
    (sfsDirentSearchLoop k name i n).run s = .ok (j, (entry j).ino) s := by
  induction n generalizing i with
  | zero => omega
  | succ n ih =>
    rw [sfsDirentSearchLoop, bind_of_ok (hread i (le_refl _) hij)]
    rcases hij.lt_or_eq with hlt | rfl
    · have hrest : (sfsDirentSearchLoop k name (i + 1) n).run s = .ok (j, (entry j).ino) s :=
        ih (fun m h₁ h₂ ↦ hread m (by omega) h₂) hlt (by omega)
          fun m h₁ h₂ ↦ hbefore m (by omega) h₂
      by_cases hzero : (entry i).ino = 0
      · rw [if_pos hzero, hrest]
      · rw [if_neg hzero, if_neg fun h ↦ hbefore i (le_refl _) hlt h.symm, hrest]
    · rw [if_neg hino, if_pos hname.symm, run_pure]

end Dirent

end Ucore
