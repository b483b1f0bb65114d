import Mathlib.Data.List.GetD
import Ucore.Dev.Disk0
import Ucore.Vfs.Walk

/-!
# The name of the current directory

`sfs_namefile` of `kern/fs/sfs/sfs_inode.c`, with `sfs_dirent_findino_nolock`, and `vfs_getcwd` of
`kern/fs/vfs/vfspath.c` above it. The routine climbs from a directory to the root by the entries
`..`, looks up in every parent the name of the directory that it came from, and writes the names
into the buffer from its end. On the way it holds one reference, to the directory that it has
reached; what it loads it also reclaims.

The main result, `vfsGetcwd_exact`, is about every directory that is reached from the root by
entries other than `.` and `..` (`Vfs.PathTo`), and every buffer.
-/

namespace Ucore

open Bytes Prog
open Disk0 (Iobuf)

/-! ## The routines -/

/-- The kernel, and the memory with a buffer in it. -/
structure Cwd where
  vfs : Vfs
  mem : Bytes
  iob : Iobuf

/-- A routine with a buffer. -/
abbrev CwdProg (α : Type) : Type := Prog Errno Cwd α

/-- The loop of `sfs_dirent_findino_nolock` over the `n` slots from `i` on. -/
def sfsDirentFindinoLoop (k ino i : ℕ) : ℕ → Prog Errno SfsFs SfsDiskEntry
  | 0 => fail .noent
  | n + 1 => do
    let entry ← sfsDirentReadNolock k i
    if entry.ino = ino then return entry else sfsDirentFindinoLoop k ino (i + 1) n

def sfsDirentFindinoNolock (k ino : ℕ) : Prog Errno SfsFs SfsDiskEntry := do
  let sin ← getSin k
  sfsDirentFindinoLoop k ino 0 sin.din.blocks

/-- `"."`. -/
def dot : List UInt8 := [46]

/-- `".."`. -/
def dotdot : List UInt8 := [46, 46]

namespace Cwd

/-- A routine without the buffer. -/
def onVfs {α : Type} (m : VfsProg α) : CwdProg α := m.zoom Cwd.vfs fun vfs s ↦ { s with vfs := vfs }

/-- `memcpy` of a string into the memory. -/
def store (a : ℕ) (l : List UInt8) : CwdProg Unit :=
  modify fun s ↦ { s with mem := memcpy s.mem a (ofList l) 0 l.length }

/-- `iobuf_skip`. The offset is an `off_t`. -/
def iobufSkip (n : ℕ) : CwdProg Unit := do
  let s ← get
  assert (n ≤ s.iob.ioResid)
  modify fun s ↦ { s with
    iob := { s.iob with
      ioBase := s.iob.ioBase + n
      ioOffset := (s.iob.ioOffset + n).bmod (2 ^ 64)
      ioResid := s.iob.ioResid - n } }

/-- `iobuf_move` of a string into the buffer. -/
def iobufMove (data : List UInt8) : CwdProg Unit := do
  let s ← get
  let alen := min s.iob.ioResid data.length
  if 0 < alen then do
    store s.iob.ioBase (data.take alen)
    iobufSkip alen
  else
    pure ()
  if data.length - alen = 0 then pure () else fail .noMem

/-- The loop of `sfs_namefile` in directory `k`: `ptr` and `resid` at its end. -/
def sfsNamefileLoop (k ptr resid : ℕ) : CwdProg (ℕ × ℕ) := do
  let parent ← (onVfs (sfsLookupNode k dotdot)).onError (onVfs (inodeRefDec (.sfs k)))
  onVfs (inodeRefDec (.sfs k))
  if k = parent then do
    onVfs (inodeRefDec (.sfs k))
    pure (ptr, resid)
  else do
    let sin ← onVfs (onSfs (getSin parent))
    assert (sin.din.type = sfsTypeDir)
    let entry ← (onVfs (onSfs (sfsDirentFindinoNolock parent k))).onError
      (onVfs (inodeRefDec (.sfs parent)))
    if _h : entry.str.length + 1 ≤ resid then do
      store (ptr - (entry.str.length + 1)) (entry.str ++ [slash])
      sfsNamefileLoop parent (ptr - (entry.str.length + 1)) (resid - (entry.str.length + 1))
    else do
      onVfs (inodeRefDec (.sfs parent))
      fail .noMem
termination_by resid
decreasing_by omega

/-- `sfs_namefile`. The `memmove` reads the names where the loop has left them. -/
def sfsNamefile (k : ℕ) : CwdProg Unit := do
  let s ← get
  if s.iob.ioResid ≤ 2 then
    fail .noMem
  else do
    onVfs kmalloc
    onVfs (inodeRefInc (.sfs k))
    let r ← sfsNamefileLoop k (s.iob.ioBase + s.iob.ioResid) (s.iob.ioResid - 2)
    let alen := s.iob.ioResid - r.2 - 2
    modify fun t ↦ { t with mem := memcpy t.mem (s.iob.ioBase + 1) t.mem r.1 alen }
    store s.iob.ioBase [slash]
    store (s.iob.ioBase + 1 + alen) [0]
    iobufSkip alen

/-- `vop_namefile`. Of the inodes of the file system only directories have the operation. -/
def vopNamefile (k : ℕ) : CwdProg Unit := do
  onVfs (inodeCheck (.sfs k))
  let sin ← onVfs (onSfs (getSin k))
  assert (sin.din.type = sfsTypeDir)
  sfsNamefile k

/-- `vfs_get_devname` of the file system; `strlen` of a null pointer stops the machine. -/
def vfsGetDevname : CwdProg (List UInt8) := do
  let s ← get
  match s.vfs.vdevList.find? fun v ↦ v.mounted with
  | some v => pure v.devname
  | none => halt

/-- `vfs_getcwd` between taking the reference to the current directory and dropping it. -/
def vfsGetcwdSub (k : ℕ) : CwdProg Unit := do
  let devname ← vfsGetDevname
  iobufMove devname
  iobufMove [colon]
  vopNamefile k

/-- `vfs_getcwd`. The inode of a device has no `in_fs`. -/
def vfsGetcwd : CwdProg Unit := do
  let node ← onVfs vfsGetCurdir
  match node with
  | .dev _ => halt
  | .sfs k => do
    let r ← attempt (vfsGetcwdSub k)
    onVfs (inodeRefDec (.sfs k))
    match r with
    | .ok () => pure ()
    | .error e => fail e

end Cwd

/-! ## A reference that is held for a while -/

/-- The inode in memory with one reference more. -/
def SfsFs.heldInode (s : SfsFs) (k : ℕ) : SfsInode :=
  match s.inodes k with
  | some sin => { sin with refCount := sin.refCount + 1 }
  | none => ⟨s.dinOf k, false, 1, 1, 0⟩

namespace Vfs

/-- The state with one reference more to an inode of the file system. -/
def hold (s : Vfs) (k : ℕ) : Vfs :=
  { s with sfs := { s.sfs with
    inodes := Function.update s.sfs.inodes k (some (s.sfs.heldInode k))
    inodeList :=
      if (s.sfs.inodes k).isNone then k :: s.sfs.inodeList else s.sfs.inodeList } }

/-- The state `t` with `k` in memory as it is in `s`. -/
def letGo (t s : Vfs) (k : ℕ) : Vfs :=
  { t with sfs := { t.sfs with
    inodes := Function.update t.sfs.inodes k (s.sfs.inodes k)
    inodeList :=
      if (s.sfs.inodes k).isNone then t.sfs.inodeList.erase k else t.sfs.inodeList } }

/-- Every inode in memory has a reference. -/
def Referenced (s : Vfs) : Prop := ∀ k sin, s.sfs.inodes k = some sin → 0 < sin.refCount

section Hold

variable {s t : Vfs} {k p : ℕ} {sin : SfsInode}

theorem hold_inodes_self (s : Vfs) (k : ℕ) :
    (s.hold k).sfs.inodes k = some (s.sfs.heldInode k) := Function.update_self ..

theorem hold_inodes_of_ne (s : Vfs) (h : p ≠ k) : (s.hold k).sfs.inodes p = s.sfs.inodes p :=
  Function.update_of_ne h ..

theorem sameDisk_hold (s : Vfs) (k : ℕ) : SameDisk s (s.hold k) := ⟨rfl, rfl, rfl, rfl⟩

theorem heldInode_din (s : SfsFs) (k : ℕ) : (s.heldInode k).din = s.dinOf k := by
  cases hk : s.inodes k with
  | some sin => rw [SfsFs.heldInode, hk, SfsFs.dinOf_of_cached hk]
  | none => rw [SfsFs.heldInode, hk]

theorem hold_dinOf (s : Vfs) (k p : ℕ) : (s.hold k).sfs.dinOf p = s.sfs.dinOf p := by
  by_cases hp : p = k
  · rw [hp, SfsFs.dinOf_of_cached (s.hold_inodes_self k), heldInode_din]
  · rw [SfsFs.dinOf, SfsFs.dinOf, hold_inodes_of_ne s hp]
    rfl

theorem hold_heldInode (s : Vfs) (h : p ≠ k) : (s.hold k).sfs.heldInode p = s.sfs.heldInode p := by
  rw [SfsFs.heldInode, SfsFs.heldInode, hold_inodes_of_ne s h, hold_dinOf]

/-- An inode in memory that is held is only counted. -/
theorem sameView_hold (hk : s.sfs.inodes k = some sin) : SameView s (s.hold k) := by
  refine ⟨sameDisk_hold s k, fun p ↦ ?_⟩
  by_cases hp : p = k
  · rw [hp, hold_inodes_self, SfsFs.heldInode, hk]
    rfl
  · rw [hold_inodes_of_ne s hp]

theorem Referenced.hold (h : s.Referenced) (k : ℕ) : (s.hold k).Referenced := by
  intro p sin hp
  by_cases hpk : p = k
  · rw [hpk, hold_inodes_self, SfsFs.heldInode] at hp
    cases hk : s.sfs.inodes k with
    | some sin' =>
      rw [hk] at hp
      obtain rfl := Option.some.inj hp
      exact Nat.succ_pos _
    | none =>
      rw [hk] at hp
      obtain rfl := Option.some.inj hp
      exact Nat.one_pos
  · rw [hold_inodes_of_ne s hpk] at hp
    exact h p sin hp

theorem hold_letGo (s : Vfs) (k : ℕ) : (s.hold k).letGo s k = s := by
  have hinodes : Function.update (s.hold k).sfs.inodes k (s.sfs.inodes k) = s.sfs.inodes := by
    rw [hold, Function.update_idem, Function.update_eq_self]
  rw [letGo, hinodes]
  by_cases hnone : (s.sfs.inodes k).isNone = true
  · simp only [hold, if_pos hnone, List.erase_cons_head]
  · simp only [hold, if_neg hnone]

/-- Of two inodes that are held the first one is let go. -/
theorem hold_hold_letGo (s : Vfs) (h : p ≠ k) : ((s.hold k).hold p).letGo s k = s.hold p := by
  have hinodes : Function.update ((s.hold k).hold p).sfs.inodes k (s.sfs.inodes k) =
      (s.hold p).sfs.inodes := by
    funext j
    by_cases hj : j = k
    · rw [hj, Function.update_self, hold_inodes_of_ne s h.symm]
    rw [Function.update_of_ne hj]
    by_cases hjp : j = p
    · rw [hjp, hold_inodes_self, hold_inodes_self, hold_heldInode s h]
    · rw [hold_inodes_of_ne _ hjp, hold_inodes_of_ne _ hj, hold_inodes_of_ne _ hjp]
  rw [letGo, hinodes]
  have hlist : (if (s.sfs.inodes k).isNone then ((s.hold k).hold p).sfs.inodeList.erase k
      else ((s.hold k).hold p).sfs.inodeList) = (s.hold p).sfs.inodeList := by
    change (if (s.sfs.inodes k).isNone then
      (if ((s.hold k).sfs.inodes p).isNone then p :: (s.hold k).sfs.inodeList
        else (s.hold k).sfs.inodeList).erase k
      else if ((s.hold k).sfs.inodes p).isNone then p :: (s.hold k).sfs.inodeList
        else (s.hold k).sfs.inodeList) =
      if (s.sfs.inodes p).isNone then p :: s.sfs.inodeList else s.sfs.inodeList
    rw [hold_inodes_of_ne s h]
    have hk : (s.hold k).sfs.inodeList =
        if (s.sfs.inodes k).isNone then k :: s.sfs.inodeList else s.sfs.inodeList := rfl
    rw [hk]
    have hpk : ¬(p == k) = true := by rwa [beq_iff_eq]
    by_cases hnone : (s.sfs.inodes k).isNone = true
    · by_cases hp : (s.sfs.inodes p).isNone = true
      · simp only [if_pos hnone, if_pos hp, List.erase_cons_tail hpk, List.erase_cons_head]
      · simp only [if_pos hnone, if_neg hp, List.erase_cons_head]
    · simp only [if_neg hnone]
  rw [hlist]
  rfl

end Hold

end Vfs

/-! ## Taking and dropping it -/

section Runs

open Vfs

variable {s t b : Vfs} {k p : ℕ} {live : Finset ℕ}

/-- An inode that was only read leaves the memory. -/
theorem sfsReclaim_clean {s : SfsFs} {din : SfsDiskInode}
    (hk : s.inodes k = some ⟨din, false, 1, 0, 0⟩) (hlinks : din.nlinks ≠ 0) :
    (sfsReclaim k).run s = .ok () (s.removeLinks k) := by
  have hself : (s.setInode k ⟨din, false, 0, 0, 0⟩).inodes k = some ⟨din, false, 0, 0, 0⟩ :=
    s.setInode_inodes_self k _
  have hremove : (s.setInode k ⟨din, false, 0, 0, 0⟩).removeLinks k = s.removeLinks k := by
    rw [SfsFs.removeLinks, SfsFs.setInode, SfsFs.removeLinks, Function.update_idem]
  have hsync : (sfsReclaimSync k).run (s.setInode k ⟨din, false, 0, 0, 0⟩) =
      .ok () (s.setInode k ⟨din, false, 0, 0, 0⟩) := by
    rw [sfsReclaimSync, bind_of_ok (getSin_eq hself), if_neg (by rintro ⟨⟩)]
    rfl
  have hkill : (sfsReclaimKill k).run (s.setInode k ⟨din, false, 0, 0, 0⟩) =
      .ok () (s.removeLinks k) := by
    rw [sfsReclaimKill, bind_of_ok (getSin_eq hself), modify_bind_run, hremove, sfsReclaimBlocks,
      if_neg hlinks]
    exact run_assert (p := (0 : ℕ) = 0 ∧ (0 : ℕ) = 0) ⟨rfl, rfl⟩ _
  rw [sfsReclaim, bind_of_ok (getSin_eq hk), assert_bind_run Nat.one_pos, putSin_bind_run,
    if_neg (by rintro (h | h) <;> exact h rfl), if_neg hlinks]
  exact (bind_of_ok hsync _).trans hkill

/-- The reference that was taken is dropped, whatever has become of the other inodes. -/
theorem inodeRefDec_letGo (href : s.Referenced) (hlinks : (s.sfs.dinOf k).nlinks ≠ 0)
    (hk : t.sfs.inodes k = some (s.sfs.heldInode k)) :
    (inodeRefDec (.sfs k)).run t = .ok () (t.letGo s k) := by
  have hmem : t.InMemory (.sfs k) := by
    change t.sfs.inodes k ≠ none
    rw [hk]
    rintro ⟨⟩
  have hcounts : t.counts (.sfs k) =
      ((s.sfs.heldInode k).refCount, (s.sfs.heldInode k).openCount) := SfsFs.counts_of_cached hk
  have hput := putCounts_run (fun c ↦ (c.1 - 1, c.2)) hmem
  rw [hcounts] at hput
  dsimp only at hput
  have hset : t.setCounts (.sfs k)
      ((s.sfs.heldInode k).refCount - 1, (s.sfs.heldInode k).openCount) =
      { t with sfs := t.sfs.setInode k { s.sfs.heldInode k with
        refCount := (s.sfs.heldInode k).refCount - 1 } } := by
    rw [setCounts, hk]
  rw [hset] at hput
  rw [inodeRefDec, get_bind_run, hcounts]
  -- the inode was in memory and stays there, or it was loaded for this reference and goes with it
  cases hs : s.sfs.inodes k with
  | some sin =>
    have hheld : s.sfs.heldInode k = { sin with refCount := sin.refCount + 1 } := by
      rw [SfsFs.heldInode, hs]
    rw [hheld] at hput ⊢
    have hne : ¬(sin.refCount + 1 - 1 = 0) := (href k sin hs).ne'
    rw [assert_bind_run (Nat.succ_pos _), bind_of_ok hput]
    refine (congrArg (fun m : VfsProg Unit ↦ m.run _) (if_neg hne)).trans ?_
    rw [run_pure, letGo, hs]
    rfl
  | none =>
    have hheld : s.sfs.heldInode k = ⟨s.sfs.dinOf k, false, 1, 1, 0⟩ := by
      rw [SfsFs.heldInode, hs]
    rw [hheld] at hput ⊢
    have hself : (t.sfs.setInode k ⟨s.sfs.dinOf k, false, 1, 0, 0⟩).inodes k =
        some ⟨s.sfs.dinOf k, false, 1, 0, 0⟩ := t.sfs.setInode_inodes_self k _
    have hremove : (t.sfs.setInode k ⟨s.sfs.dinOf k, false, 1, 0, 0⟩).removeLinks k =
        t.sfs.removeLinks k := by
      rw [SfsFs.removeLinks, SfsFs.setInode, SfsFs.removeLinks, Function.update_idem]
    have hreclaim := sfsReclaim_clean hself hlinks
    rw [hremove] at hreclaim
    have hcheck : (inodeCheck (.sfs k)).run
        { t with sfs := t.sfs.setInode k ⟨s.sfs.dinOf k, false, 1, 0, 0⟩ } =
        .ok () { t with sfs := t.sfs.setInode k ⟨s.sfs.dinOf k, false, 1, 0, 0⟩ } := by
      have hzero : Vfs.counts { t with sfs := t.sfs.setInode k ⟨s.sfs.dinOf k, false, 1, 0, 0⟩ }
          (.sfs k) = (0, 0) := SfsFs.counts_of_cached hself
      rw [inodeCheck, get_bind_run, run_assert]
      rw [hzero]
      decide
    have hvop : (vopReclaim (.sfs k)).run
        { t with sfs := t.sfs.setInode k ⟨s.sfs.dinOf k, false, 1, 0, 0⟩ } =
        .ok () { t with sfs := t.sfs.removeLinks k } :=
      (bind_of_ok hcheck _).trans (zoom_of_ok hreclaim)
    have hzero : 1 - 1 = 0 := rfl
    rw [assert_bind_run Nat.one_pos, bind_of_ok hput]
    refine (congrArg (fun m : VfsProg Unit ↦ m.run _) (if_pos hzero)).trans ?_
    refine (bind_of_ok (attempt_of_ok hvop) _).trans ?_
    rw [run_pure, letGo, hs]
    rfl

/-- A reference is taken and dropped again. -/
theorem inodeRefDec_hold (href : s.Referenced) (hlinks : (s.sfs.dinOf k).nlinks ≠ 0) :
    (inodeRefDec (.sfs k)).run (s.hold k) = .ok () s := by
  rw [inodeRefDec_letGo href hlinks (hold_inodes_self s k), hold_letGo]

/-- Of two references the older one is dropped. -/
theorem inodeRefDec_hold_hold (href : s.Referenced) (hlinks : (s.sfs.dinOf k).nlinks ≠ 0) :
    (inodeRefDec (.sfs k)).run ((s.hold k).hold p) = .ok () (s.hold p) := by
  by_cases hp : p = k
  · rw [hp]
    exact inodeRefDec_hold (href.hold k) (by rwa [hold_dinOf])
  · have hk : ((s.hold k).hold p).sfs.inodes k = some (s.sfs.heldInode k) := by
      rw [hold_inodes_of_ne _ (Ne.symm hp), hold_inodes_self]
    rw [inodeRefDec_letGo href hlinks hk, hold_hold_letGo s hp]

/-- An inode that is in memory is held. -/
theorem inodeRefInc_hold {sin : SfsInode} (hk : s.sfs.inodes k = some sin) :
    (inodeRefInc (.sfs k)).run s = .ok () (s.hold k) := by
  have hmem : s.InMemory (.sfs k) := by
    change s.sfs.inodes k ≠ none
    rw [hk]
    rintro ⟨⟩
  have hheld : s.sfs.heldInode k = { sin with refCount := sin.refCount + 1 } := by
    rw [SfsFs.heldInode, hk]
  have hcounts : s.counts (.sfs k) = (sin.refCount, sin.openCount) := SfsFs.counts_of_cached hk
  rw [inodeRefInc, putCounts_run _ hmem, hcounts, setCounts, hk, hold, hheld, hk]
  rfl

/-- Loading an inode of the tree holds it. -/
theorem sfsLoadNode_hold (h : s.Tree live) (hdisk : SameDisk s b)
    (hdin : ∀ j, b.sfs.dinOf j = s.sfs.dinOf j) (href : b.Referenced) (hp : p ∈ live) :
    (sfsLoadNode p).run b = .ok () (b.hold p) := by
  cases hk : b.sfs.inodes p with
  | some sin =>
    have hrevive : sin.revive = { sin with refCount := sin.refCount + 1 } := by
      rw [SfsInode.revive, if_neg (href p sin hk).ne']
    rw [sfsLoadNode_cached hk, hold, SfsFs.heldInode, hk, hrevive]
    rfl
  | none =>
    rw [sfsLoadNode_fresh (hdisk.grants.trans h.grants) (hdisk.ok h.owned.ok)
      (hdisk.used.mpr (h.owned.used_inode hp)) (by rw [hdin]; exact h.linked p hp)
      (by rw [hdin]; exact h.kind p hp) hk, hold, SfsFs.heldInode, hk]
    rfl

end Runs

/-! ## The tree and its paths -/

namespace Vfs

/-- A tree of directories with the entries `.` and `..`. -/
structure DirTree (s : Vfs) (live : Finset ℕ) : Prop extends Tree s live where
  /-- An inode without references is not in memory. -/
  referenced : s.Referenced
  /-- The root is its own parent. -/
  root_parent : s.child (.sfs sfsBlknRoot) dotdot = some (.sfs sfsBlknRoot)
  /-- The parent of another directory is the directory with an entry for it. -/
  parent : ∀ p ∈ live, (s.sfs.dinOf p).type = sfsTypeDir → ∀ i ∈ s.sfs.usedSlots (s.sfs.dinOf p),
    (s.sfs.dinOf (s.sfs.dirent (s.sfs.dinOf p) i).ino).type = sfsTypeDir →
    (s.sfs.dirent (s.sfs.dinOf p) i).str ≠ dot → (s.sfs.dirent (s.sfs.dinOf p) i).str ≠ dotdot →
    (s.sfs.dirent (s.sfs.dinOf p) i).ino ≠ p ∧
      s.child (.sfs (s.sfs.dirent (s.sfs.dinOf p) i).ino) dotdot = some (.sfs p)
  /-- A directory has one name in its parent. -/
  unique : ∀ p ∈ live, (s.sfs.dinOf p).type = sfsTypeDir → ∀ i ∈ s.sfs.usedSlots (s.sfs.dinOf p),
    ∀ j ∈ s.sfs.usedSlots (s.sfs.dinOf p),
    (s.sfs.dinOf (s.sfs.dirent (s.sfs.dinOf p) i).ino).type = sfsTypeDir →
    (s.sfs.dirent (s.sfs.dinOf p) i).str ≠ dot → (s.sfs.dirent (s.sfs.dinOf p) i).str ≠ dotdot →
    (s.sfs.dirent (s.sfs.dinOf p) j).ino = (s.sfs.dirent (s.sfs.dinOf p) i).ino →
    (s.sfs.dirent (s.sfs.dinOf p) j).str = (s.sfs.dirent (s.sfs.dinOf p) i).str

/-- The directories that are reached from the root, with the names on the way. -/
inductive PathTo (s : Vfs) : ℕ → List (List UInt8) → Prop
  | root : PathTo s sfsBlknRoot []
  | entry {p i : ℕ} {names : List (List UInt8)} (hp : PathTo s p names)
    (hi : i ∈ s.sfs.usedSlots (s.sfs.dinOf p))
    (hdir : (s.sfs.dinOf (s.sfs.dirent (s.sfs.dinOf p) i).ino).type = sfsTypeDir)
    (hdot : (s.sfs.dirent (s.sfs.dinOf p) i).str ≠ dot)
    (hdotdot : (s.sfs.dirent (s.sfs.dinOf p) i).str ≠ dotdot) :
    PathTo s (s.sfs.dirent (s.sfs.dinOf p) i).ino (names ++ [(s.sfs.dirent (s.sfs.dinOf p) i).str])

section Path

variable {s b : Vfs} {k p : ℕ} {live : Finset ℕ} {names : List (List UInt8)}

/-- A path leads to a directory of the tree. -/
theorem PathTo.dir (h : s.DirTree live) (hpath : s.PathTo k names) :
    k ∈ live ∧ (s.sfs.dinOf k).type = sfsTypeDir := by
  induction hpath with
  | root =>
    obtain ⟨ino, sin, hino, hk, htype, -⟩ := h.root
    obtain rfl := Node.sfs.inj hino
    exact ⟨h.owned.cached _ sin hk, by rwa [SfsFs.dinOf_of_cached hk]⟩
  | @entry p i names hp hi hdir hdot hdotdot ih => exact ⟨(h.entries p ih.1 ih.2 i hi).1, hdir⟩

end Path

end Vfs

section Lookup

open Vfs

variable {s b : Vfs} {k p : ℕ} {live : Finset ℕ}

theorem SfsFs.mem_usedSlots {s : SfsFs} {din : SfsDiskInode} {i : ℕ} :
    i ∈ s.usedSlots din ↔ i < din.blocks ∧ (s.dirent din i).ino ≠ 0 := by
  rw [SfsFs.usedSlots, SfsFs.usedFrom, List.mem_filter, List.mem_range'_1, decide_eq_true_eq,
    Nat.zero_add]
  exact and_congr_left fun _ ↦ and_iff_right (Nat.zero_le i)

/-- The slot of an entry for an inode is found. -/
theorem sfsDirentFindinoLoop_ok {s : SfsFs} {sin : SfsInode} (ho : s.Ok)
    (hk : s.inodes k = some sin) (hm : s.Mapped sin.din) (htype : sin.din.type = sfsTypeDir)
    {ino i n : ℕ} (hn : i + n ≤ sin.din.blocks)
    (hex : ∃ j, i ≤ j ∧ j < i + n ∧ (s.dirent sin.din j).ino = ino) :
    ∃ j < sin.din.blocks, (s.dirent sin.din j).ino = ino ∧
      (sfsDirentFindinoLoop k ino i n).run s = .ok (s.dirent sin.din j) s := by
  induction n generalizing i with
  | zero =>
    obtain ⟨j, hle, hlt, -⟩ := hex
    omega
  | succ n ih =>
    have hi : i < sin.din.blocks := by omega
    have hread := sfsDirentReadNolock_eq ho hk htype hi (hm.used i hi) hm.indirect
    rw [sfsDirentFindinoLoop, bind_of_ok hread]
    change ∃ j < sin.din.blocks, (s.dirent sin.din j).ino = ino ∧
      (if (s.dirent sin.din i).ino = ino then pure (s.dirent sin.din i) else
        sfsDirentFindinoLoop k ino (i + 1) n : Prog Errno SfsFs SfsDiskEntry).run s =
        .ok (s.dirent sin.din j) s
    by_cases hino : (s.dirent sin.din i).ino = ino
    · exact ⟨i, hi, hino, by rw [if_pos hino, run_pure]⟩
    · obtain ⟨j, hle, hlt, hj⟩ := hex
      have hne : i ≠ j := by
        rintro rfl
        exact hino hj
      rw [if_neg hino]
      exact ih (by omega) ⟨j, by omega, by omega, hj⟩

/-- Looking up `..` in a directory that is held holds the parent too. -/
theorem sfsLookupNode_hold (h : s.DirTree live) (hview : SameView s b) (href : b.Referenced)
    (hk : k ∈ live) (hup : s.child (.sfs k) dotdot = some (.sfs p)) :
    (sfsLookupNode k dotdot).run (b.hold k) = .ok p ((b.hold k).hold p) := by
  have hdisk : SameDisk s (b.hold k) := hview.toSameDisk.trans (sameDisk_hold b k)
  have hdin : ∀ j, (b.hold k).sfs.dinOf j = s.sfs.dinOf j := fun j ↦
    (hold_dinOf b k j).trans (hview.dinOf j)
  have hheld : (b.sfs.heldInode k).din = s.sfs.dinOf k := by
    rw [heldInode_din, hview.dinOf]
  have htype : (s.sfs.dinOf k).type = sfsTypeDir := by
    by_contra hne
    rw [child, if_neg hne] at hup
    cases hup
  rw [child, if_pos htype, Option.map_eq_some_iff] at hup
  obtain ⟨i, hfind, hp⟩ := hup
  obtain rfl := Node.sfs.inj hp
  have hino := (h.entries k hk htype i (List.mem_of_find?_eq_some hfind)).1
  have hlen : dotdot.length ≤ sfsMaxFnameLen := by decide
  have hsearch := sfsDirentSearchNolock_find (hdisk.ok h.owned.ok) (hold_inodes_self b k)
    (by rw [hheld]; exact hdisk.mapped (h.owned.mapped hk)) (by rw [hheld, htype]) hlen
  rw [hheld, hdisk.findEntry, hfind] at hsearch
  dsimp only at hsearch
  rw [hdisk.dirent] at hsearch
  rw [sfsLookupNode, assert_bind_run hlen, bind_of_ok (kmalloc_run (hdisk.grants.trans h.grants)),
    bind_of_ok (onSfs_of_ok hsearch),
    bind_of_ok (sfsLoadNode_hold h.toTree hdisk hdin (href.hold k) hino), run_pure]

/-- The name of a directory is found in its parent. -/
theorem sfsDirentFindinoNolock_hold (h : s.DirTree live) (hview : SameView s b) (hp : p ∈ live)
    (htype : (s.sfs.dinOf p).type = sfsTypeDir) {i : ℕ}
    (hi : i ∈ s.sfs.usedSlots (s.sfs.dinOf p))
    (hdir : (s.sfs.dinOf (s.sfs.dirent (s.sfs.dinOf p) i).ino).type = sfsTypeDir)
    (hdot : (s.sfs.dirent (s.sfs.dinOf p) i).str ≠ dot)
    (hdotdot : (s.sfs.dirent (s.sfs.dinOf p) i).str ≠ dotdot) :
    ∃ entry : SfsDiskEntry, entry.str = (s.sfs.dirent (s.sfs.dinOf p) i).str ∧
      (sfsDirentFindinoNolock p (s.sfs.dirent (s.sfs.dinOf p) i).ino).run (b.hold p).sfs =
        .ok entry (b.hold p).sfs := by
  have hdisk : SameDisk s (b.hold p) := hview.toSameDisk.trans (sameDisk_hold b p)
  have hheld : (b.sfs.heldInode p).din = s.sfs.dinOf p := by
    rw [heldInode_din, hview.dinOf]
  have hslot := SfsFs.mem_usedSlots.mp hi
  obtain ⟨j, hj, hino, hrun⟩ := sfsDirentFindinoLoop_ok (hdisk.ok h.owned.ok)
    (hold_inodes_self b p) (by rw [hheld]; exact hdisk.mapped (h.owned.mapped hp))
    (by rw [hheld, htype]) (Nat.zero_add _).le
    ⟨i, Nat.zero_le i, by rw [hheld, Nat.zero_add]; exact hslot.1, by rw [hheld, hdisk.dirent]⟩
  rw [hheld] at hj hino hrun
  rw [hdisk.dirent] at hino hrun
  refine ⟨s.sfs.dirent (s.sfs.dinOf p) j, ?_,
    (bind_of_ok (getSin_eq (hold_inodes_self b p)) _).trans ?_⟩
  · exact h.unique p hp htype i hi j (SfsFs.mem_usedSlots.mpr ⟨hj, hino ▸ hslot.2⟩) hdir hdot
      hdotdot hino
  · rw [hheld]
    exact hrun

end Lookup

/-! ## Strings in memory -/

/-- The string is in memory at that address. -/
def Spells (m : Bytes) (a : ℕ) (l : List UInt8) : Prop := ∀ i < l.length, m (a + i) = l.getD i 0

section Spells

variable {m m' : Bytes} {a p : ℕ} {l l' : List UInt8}

theorem spells_nil (m : Bytes) (a : ℕ) : Spells m a [] := fun i hi ↦ absurd hi i.not_lt_zero

theorem Spells.append (h : Spells m a l) (h' : Spells m (a + l.length) l') :
    Spells m a (l ++ l') := by
  intro i hi
  rw [List.length_append] at hi
  by_cases hlt : i < l.length
  · rw [h i hlt, List.getD_append _ _ _ _ hlt]
  · have hle : l.length ≤ i := not_lt.mp hlt
    rw [List.getD_append_right _ _ _ _ hle, ← h' (i - l.length) (by omega), add_assoc,
      Nat.add_sub_cancel' hle]

theorem Spells.congr (h : Spells m a l) (hm : ∀ c, a ≤ c → c < a + l.length → m' c = m c) :
    Spells m' a l := fun i hi ↦ by
  rw [hm _ (Nat.le_add_right a i) (Nat.add_lt_add_left hi a), h i hi]

/-- A string that is copied. -/
theorem Spells.memcpy (h : Spells m p l) (m' : Bytes) (a : ℕ) :
    Spells (memcpy m' a m p l.length) a l := by
  intro i hi
  rw [memcpy_of_mem (Nat.le_add_right a i) (Nat.add_lt_add_left hi a), Nat.add_sub_cancel_left,
    h i hi]

theorem spells_ofList (l : List UInt8) : Spells (ofList l) 0 l := fun i _ ↦ by
  rw [Nat.zero_add, ofList]

end Spells

/-! ## The climb -/

namespace Cwd

open Vfs

variable {s b : Vfs} {k p : ℕ} {live : Finset ℕ} {names : List (List UInt8)}

/-- The names on the way from the root, with a slash behind each of them. -/
def text (names : List (List UInt8)) : List UInt8 := names.flatMap fun name ↦ name ++ [slash]

theorem onVfs_of_ok {α : Type} {m : VfsProg α} {a : α} {v v' : Vfs} (h : m.run v = .ok a v')
    (mem : Bytes) (iob : Iobuf) : (onVfs m).run ⟨v, mem, iob⟩ = .ok a ⟨v', mem, iob⟩ :=
  zoom_of_ok h

theorem store_run (a : ℕ) (l : List UInt8) (v : Vfs) (mem : Bytes) (iob : Iobuf) :
    (store a l).run ⟨v, mem, iob⟩ = .ok () ⟨v, memcpy mem a (ofList l) 0 l.length, iob⟩ := rfl

/-- The two references at the root are dropped. -/
theorem sfsNamefileLoop_root (h : s.DirTree live) (hview : SameView s b) (href : b.Referenced)
    (ptr resid : ℕ) (mem : Bytes) (iob : Iobuf) :
    (sfsNamefileLoop sfsBlknRoot ptr resid).run ⟨b.hold sfsBlknRoot, mem, iob⟩ =
      .ok (ptr, resid) ⟨b, mem, iob⟩ := by
  have hroot := (PathTo.root (s := s)).dir h
  have hlinks : (b.sfs.dinOf sfsBlknRoot).nlinks ≠ 0 := by
    rw [hview.dinOf]
    exact h.linked _ hroot.1
  have hlookup := sfsLookupNode_hold h hview href hroot.1 h.root_parent
  rw [sfsNamefileLoop, bind_of_ok (onError_of_ok (onVfs_of_ok hlookup mem iob) _),
    bind_of_ok (onVfs_of_ok (inodeRefDec_hold_hold href hlinks) mem iob), if_pos rfl,
    bind_of_ok (onVfs_of_ok (inodeRefDec_hold href hlinks) mem iob), run_pure]

/-- From a directory to its parent, with the entry for the directory. -/
theorem sfsNamefileLoop_entry (h : s.DirTree live) (hview : SameView s b) (href : b.Referenced)
    (hp : p ∈ live) (htype : (s.sfs.dinOf p).type = sfsTypeDir) {i : ℕ}
    (hi : i ∈ s.sfs.usedSlots (s.sfs.dinOf p))
    (hdir : (s.sfs.dinOf (s.sfs.dirent (s.sfs.dinOf p) i).ino).type = sfsTypeDir)
    (hdot : (s.sfs.dirent (s.sfs.dinOf p) i).str ≠ dot)
    (hdotdot : (s.sfs.dirent (s.sfs.dinOf p) i).str ≠ dotdot) {name : List UInt8}
    (hname : (s.sfs.dirent (s.sfs.dinOf p) i).str = name) (ptr resid : ℕ) (mem : Bytes)
    (iob : Iobuf) :
    (sfsNamefileLoop (s.sfs.dirent (s.sfs.dinOf p) i).ino ptr resid).run
        ⟨b.hold (s.sfs.dirent (s.sfs.dinOf p) i).ino, mem, iob⟩ =
      if name.length + 1 ≤ resid then
        (sfsNamefileLoop p (ptr - (name.length + 1)) (resid - (name.length + 1))).run
          ⟨b.hold p, memcpy mem (ptr - (name.length + 1)) (ofList (name ++ [slash])) 0
            (name ++ [slash]).length, iob⟩
      else .error .noMem ⟨b, mem, iob⟩ := by
  have hk := (h.entries p hp htype i hi).1
  obtain ⟨hne, hup⟩ := h.parent p hp htype i hi hdir hdot hdotdot
  have hlinks : ∀ j ∈ live, (b.sfs.dinOf j).nlinks ≠ 0 := by
    intro j hj
    rw [hview.dinOf]
    exact h.linked j hj
  obtain ⟨entry, hentry, hfind⟩ :=
    sfsDirentFindinoNolock_hold h hview hp htype hi hdir hdot hdotdot
  rw [hname] at hentry
  have hlookup := sfsLookupNode_hold h hview href hk hup
  have hgetSin : (onSfs (getSin p)).run (b.hold p) = .ok (b.sfs.heldInode p) (b.hold p) :=
    onSfs_of_ok (getSin_eq (hold_inodes_self b p))
  have htype' : (b.sfs.heldInode p).din.type = sfsTypeDir := by
    rw [heldInode_din, hview.dinOf, htype]
  rw [sfsNamefileLoop, bind_of_ok (onError_of_ok (onVfs_of_ok hlookup mem iob) _),
    bind_of_ok (onVfs_of_ok (inodeRefDec_hold_hold href (hlinks _ hk)) mem iob), if_neg hne,
    bind_of_ok (onVfs_of_ok hgetSin mem iob), assert_bind_run htype',
    bind_of_ok (onError_of_ok (onVfs_of_ok (onSfs_of_ok hfind) mem iob) _)]
  by_cases hfits : name.length + 1 ≤ resid
  · rw [if_pos hfits, dif_pos (by rwa [hentry]), hentry, bind_of_ok (store_run ..)]
  · rw [if_neg hfits, dif_neg (by rwa [hentry]),
      bind_of_ok (onVfs_of_ok (inodeRefDec_hold href (hlinks p hp)) mem iob), run_fail]

/-- The climb from a directory to the root, by induction on the path: the names are written from the
end of the buffer on, or there is no room for them. -/
theorem sfsNamefileLoop_eq (h : s.DirTree live) (hview : SameView s b) (href : b.Referenced)
    (hpath : s.PathTo k names) (iob : Iobuf) {ptr resid : ℕ} (hresid : resid ≤ ptr) (mem : Bytes) :
    ∃ mem' : Bytes, (∀ a, a < ptr - resid ∨ ptr ≤ a → mem' a = mem a) ∧
      ((text names).length ≤ resid → Spells mem' (ptr - (text names).length) (text names)) ∧
      (sfsNamefileLoop k ptr resid).run ⟨b.hold k, mem, iob⟩ =
        if (text names).length ≤ resid then
          .ok (ptr - (text names).length, resid - (text names).length) ⟨b, mem', iob⟩
        else .error .noMem ⟨b, mem', iob⟩ := by
  induction hpath generalizing ptr resid mem with
  | root =>
    refine ⟨mem, fun _ _ ↦ rfl, fun _ ↦ spells_nil _ _, ?_⟩
    have hle : (text []).length ≤ resid := Nat.zero_le resid
    rw [sfsNamefileLoop_root h hview href, if_pos hle]
    rfl
  | @entry p i names hpath hi hdir hdot hdotdot ih =>
    obtain ⟨hp, htype⟩ := hpath.dir h
    have hstep := sfsNamefileLoop_entry h hview href hp htype hi hdir hdot hdotdot rfl ptr resid
      mem iob
    generalize hname : (s.sfs.dirent (s.sfs.dinOf p) i).str = name at hstep
    have htext : text (names ++ [name]) = text names ++ (name ++ [slash]) := by
      rw [text, text, List.flatMap_append, List.flatMap_singleton]
    have hlen : (text (names ++ [name])).length = (text names).length + (name.length + 1) := by
      rw [htext, List.length_append, List.length_append, List.length_singleton]
    -- the name and its slash go in front of what has been written
    by_cases hfits : name.length + 1 ≤ resid
    · rw [if_pos hfits] at hstep
      have hresid' : resid - (name.length + 1) ≤ ptr - (name.length + 1) := by omega
      obtain ⟨mem', hframe, hspells, hrun⟩ := ih hresid'
        (memcpy mem (ptr - (name.length + 1)) (ofList (name ++ [slash])) 0 (name ++ [slash]).length)
      have hslash : (name ++ [slash]).length = name.length + 1 := by
        rw [List.length_append, List.length_singleton]
      refine ⟨mem', fun a ha ↦ ?_, fun hle ↦ ?_, ?_⟩
      · rw [hframe a (by omega), memcpy_of_notMem (by omega)]
      · rw [htext]
        have hstart : ptr - (name.length + 1) - (text names).length =
            ptr - (text names ++ (name ++ [slash])).length := by
          rw [← htext, hlen]
          omega
        rw [← hstart]
        refine (hspells (by omega)).append ?_
        have hend : ptr - (name.length + 1) - (text names).length + (text names).length =
            ptr - (name.length + 1) := by omega
        rw [hend]
        refine ((spells_ofList _).memcpy mem _).congr fun c hc _ ↦ hframe c (.inr hc)
      · rw [hstep, hrun, hlen]
        by_cases hle : (text names).length ≤ resid - (name.length + 1)
        · rw [if_pos hle, if_pos (by omega), Nat.sub_sub, Nat.sub_sub, Nat.add_comm]
        · rw [if_neg hle, if_neg (by omega)]
    · rw [if_neg hfits] at hstep
      refine ⟨mem, fun _ _ ↦ rfl, fun hle ↦ ?_, ?_⟩
      · rw [hlen] at hle
        omega
      · rw [hstep, hlen, if_neg (by omega)]

/-! ## The buffer -/

/-- The path from the root, as it is written. -/
def pathname (names : List (List UInt8)) : List UInt8 := slash :: text names

theorem iobufSkip_eq {n : ℕ} (v : Vfs) (mem : Bytes) {iob : Iobuf} (hn : n ≤ iob.ioResid) :
    ∃ iob', iob'.ioBase = iob.ioBase + n ∧ iob'.ioResid = iob.ioResid - n ∧
      (iobufSkip n).run ⟨v, mem, iob⟩ = .ok () ⟨v, mem, iob'⟩ := by
  refine ⟨_, ?_, ?_, (assert_bind_run hn _ _).trans rfl⟩
  · rfl
  · rfl

/-- A string that fits is moved. -/
theorem iobufMove_ok {data : List UInt8} (v : Vfs) (mem : Bytes) {iob : Iobuf}
    (hfits : data.length ≤ iob.ioResid) :
    ∃ iob', iob'.ioBase = iob.ioBase + data.length ∧ iob'.ioResid = iob.ioResid - data.length ∧
      (iobufMove data).run ⟨v, mem, iob⟩ =
        .ok () ⟨v, memcpy mem iob.ioBase (ofList data) 0 data.length, iob'⟩ := by
  have hmin : min iob.ioResid data.length = data.length := min_eq_right hfits
  rw [iobufMove, get_bind_run]
  dsimp only
  rw [hmin, List.take_length]
  by_cases hpos : 0 < data.length
  · obtain ⟨iob', hbase, hresid, hskip⟩ :=
      iobufSkip_eq v (memcpy mem iob.ioBase (ofList data) 0 data.length) hfits
    refine ⟨iob', hbase, hresid, ?_⟩
    rw [if_pos hpos, bind_of_ok (store_run ..), bind_of_ok hskip, if_pos (Nat.sub_self _), run_pure]
  · have hzero : data.length = 0 := Nat.eq_zero_of_not_pos hpos
    refine ⟨iob, by rw [hzero, Nat.add_zero], by rw [hzero, Nat.sub_zero], ?_⟩
    rw [if_neg hpos, if_pos (Nat.sub_self _), run_pure, hzero, memcpy_zero_len]

/-- Of a string that does not fit the beginning is moved. -/
theorem iobufMove_error {data : List UInt8} (v : Vfs) (mem : Bytes) {iob : Iobuf}
    (hfits : iob.ioResid < data.length) :
    ∃ (mem' : Bytes) (iob' : Iobuf),
      (∀ a, a < iob.ioBase ∨ iob.ioBase + iob.ioResid ≤ a → mem' a = mem a) ∧
      (iobufMove data).run ⟨v, mem, iob⟩ = .error .noMem ⟨v, mem', iob'⟩ := by
  have hmin : min iob.ioResid data.length = iob.ioResid := min_eq_left hfits.le
  have hleft : ¬(data.length - iob.ioResid = 0) := (Nat.sub_pos_of_lt hfits).ne'
  have hlen : (data.take iob.ioResid).length = iob.ioResid := by
    rw [List.length_take, hmin]
  rw [iobufMove, get_bind_run]
  dsimp only
  rw [hmin]
  by_cases hpos : 0 < iob.ioResid
  · obtain ⟨iob', -, -, hskip⟩ := iobufSkip_eq v
      (memcpy mem iob.ioBase (ofList (data.take iob.ioResid)) 0 (data.take iob.ioResid).length)
      (le_refl iob.ioResid)
    refine ⟨memcpy mem iob.ioBase (ofList (data.take iob.ioResid)) 0
      (data.take iob.ioResid).length, iob', fun a ha ↦ memcpy_of_notMem (by rwa [hlen]), ?_⟩
    rw [if_pos hpos, bind_of_ok (store_run ..), bind_of_ok hskip, if_neg hleft, run_fail]
  · refine ⟨mem, iob, fun _ _ ↦ rfl, ?_⟩
    rw [if_neg hpos, if_neg hleft, run_fail]

/-- The memory with `len` bytes from `ptr` moved to the front of the buffer, a slash before them and
a zero behind them. -/
def moveFront (mem : Bytes) (base ptr len : ℕ) : Bytes :=
  memcpy (memcpy (memcpy mem (base + 1) mem ptr len) base (ofList [slash]) 0 1) (base + 1 + len)
    (ofList [0]) 0 1

theorem spells_moveFront {mem : Bytes} {base ptr : ℕ} (hspells : Spells mem ptr (text names)) :
    Spells (moveFront mem base ptr (text names).length) base (pathname names ++ [0]) := by
  have hslash : Spells (memcpy (memcpy mem (base + 1) mem ptr (text names).length) base
      (ofList [slash]) 0 1) base [slash] := (spells_ofList [slash]).memcpy _ base
  have htext := hspells.memcpy mem (base + 1)
  refine Spells.append (l := pathname names) (Spells.append (l := [slash]) ?_ ?_) ?_
  · refine hslash.congr fun c _ hc ↦ memcpy_of_notMem (.inl ?_)
    rw [List.length_singleton] at hc
    omega
  · refine htext.congr fun c hc hlt ↦ ?_
    rw [moveFront, memcpy_of_notMem (.inl hlt), memcpy_of_notMem (.inr hc)]
  · have hend : base + (pathname names).length = base + 1 + (text names).length := by
      rw [pathname, List.length_cons]
      omega
    rw [hend]
    exact (spells_ofList [0]).memcpy _ _

/-- `sfs_namefile` of a directory in memory. -/
theorem sfsNamefile_eq (h : s.DirTree live) (hview : SameView s b) (href : b.Referenced)
    (hpath : s.PathTo k names) {sin : SfsInode} (hk : b.sfs.inodes k = some sin) (mem : Bytes)
    (iob : Iobuf) :
    ∃ (mem' : Bytes) (iob' : Iobuf),
      (∀ a, a < iob.ioBase ∨ iob.ioBase + iob.ioResid ≤ a → mem' a = mem a) ∧
      if 2 < iob.ioResid ∧ (pathname names).length + 1 ≤ iob.ioResid then
        (sfsNamefile k).run ⟨b, mem, iob⟩ = .ok () ⟨b, mem', iob'⟩ ∧
          Spells mem' iob.ioBase (pathname names ++ [0])
      else (sfsNamefile k).run ⟨b, mem, iob⟩ = .error .noMem ⟨b, mem', iob'⟩ := by
  have hlen : (pathname names).length = (text names).length + 1 := by
    rw [pathname, List.length_cons]
  rw [sfsNamefile, get_bind_run, hlen]
  by_cases hsmall : iob.ioResid ≤ 2
  · refine ⟨mem, iob, fun _ _ ↦ rfl, ?_⟩
    rw [if_neg (fun hfits ↦ absurd hfits.1 (not_lt.mpr hsmall)), if_pos hsmall, run_fail]
  have hgrants : b.grants = [] := hview.grants.trans h.grants
  have hresid : iob.ioResid - 2 ≤ iob.ioBase + iob.ioResid := by omega
  obtain ⟨mem', hframe, hspells, hrun⟩ := sfsNamefileLoop_eq h hview href hpath iob hresid mem
  rw [if_neg hsmall, bind_of_ok (onVfs_of_ok (kmalloc_run hgrants) mem iob),
    bind_of_ok (onVfs_of_ok (inodeRefInc_hold hk) mem iob)]
  by_cases hfits : (text names).length ≤ iob.ioResid - 2
  · rw [if_pos hfits] at hrun
    have halen : iob.ioResid - (iob.ioResid - 2 - (text names).length) - 2 =
        (text names).length := by omega
    obtain ⟨iob', -, -, hskip⟩ := iobufSkip_eq b
      (moveFront mem' iob.ioBase (iob.ioBase + iob.ioResid - (text names).length)
        (text names).length) (hfits.trans (Nat.sub_le _ _))
    refine ⟨_, iob', fun a ha ↦ (?_ : moveFront mem' iob.ioBase
      (iob.ioBase + iob.ioResid - (text names).length) (text names).length a = mem a), ?_⟩
    · rw [moveFront, memcpy_of_notMem (by omega), memcpy_of_notMem (by omega),
        memcpy_of_notMem (by omega)]
      exact hframe a (by omega)
    · rw [if_pos ⟨by omega, by omega⟩]
      refine ⟨(bind_of_ok hrun _).trans ?_, spells_moveFront (hspells hfits)⟩
      dsimp only
      rw [halen, modify_bind_run]
      exact hskip
  · rw [if_neg hfits] at hrun
    refine ⟨mem', iob, fun a ha ↦ hframe a (by omega), ?_⟩
    rw [if_neg (by omega)]
    exact bind_of_error hrun _

/-! ## The current directory -/

/-- `vop_namefile` of the current directory. -/
theorem vopNamefile_eq (h : s.DirTree live) (hpath : s.PathTo k names) {sin : SfsInode}
    (hk : s.sfs.inodes k = some sin) (mem : Bytes) (iob : Iobuf) :
    ∃ (mem' : Bytes) (iob' : Iobuf),
      (∀ a, a < iob.ioBase ∨ iob.ioBase + iob.ioResid ≤ a → mem' a = mem a) ∧
      if 2 < iob.ioResid ∧ (pathname names).length + 1 ≤ iob.ioResid then
        (vopNamefile k).run ⟨s.hold k, mem, iob⟩ = .ok () ⟨s.hold k, mem', iob'⟩ ∧
          Spells mem' iob.ioBase (pathname names ++ [0])
      else (vopNamefile k).run ⟨s.hold k, mem, iob⟩ = .error .noMem ⟨s.hold k, mem', iob'⟩ := by
  have hcounts : (s.hold k).counts (.sfs k) = (sin.refCount + 1, sin.openCount) := by
    refine (SfsFs.counts_of_cached (hold_inodes_self s k)).trans ?_
    rw [SfsFs.heldInode, hk]
  have hcounts' : s.counts (.sfs k) = (sin.refCount, sin.openCount) := SfsFs.counts_of_cached hk
  have hroom := h.room (.sfs k)
  rw [hcounts'] at hroom
  have hcheck : (inodeCheck (.sfs k)).run (s.hold k) = .ok () (s.hold k) := by
    rw [inodeCheck, get_bind_run, run_assert]
    rw [hcounts]
    exact ⟨hroom.1.trans (Nat.le_succ _), hroom.2, (hroom.1.trans (Nat.le_succ _)).trans_lt hroom.2⟩
  have htype : (s.sfs.heldInode k).din.type = sfsTypeDir := by
    rw [heldInode_din, (hpath.dir h).2]
  rw [vopNamefile, bind_of_ok (onVfs_of_ok hcheck _ _),
    bind_of_ok (onVfs_of_ok (onSfs_of_ok (getSin_eq (hold_inodes_self s k))) _ _),
    assert_bind_run htype]
  exact sfsNamefile_eq h (sameView_hold hk) (h.referenced.hold k) hpath (hold_inodes_self s k)
    mem iob

/-- What is written before the path: the name of the device and a colon. -/
theorem vfsGetcwdSub_eq (h : s.DirTree live) (hpath : s.PathTo k names) {sin : SfsInode}
    (hk : s.sfs.inodes k = some sin) {v : VfsDev}
    (hdev : (s.vdevList.find? fun v ↦ v.mounted) = some v) (mem : Bytes) (iob : Iobuf) :
    ∃ (mem' : Bytes) (iob' : Iobuf),
      (∀ a, a < iob.ioBase ∨ iob.ioBase + iob.ioResid ≤ a → mem' a = mem a) ∧
      if 2 < iob.ioResid - (v.devname.length + 1) ∧
          (pathname names).length + 1 ≤ iob.ioResid - (v.devname.length + 1) then
        (vfsGetcwdSub k).run ⟨s.hold k, mem, iob⟩ = .ok () ⟨s.hold k, mem', iob'⟩ ∧
          Spells mem' iob.ioBase (v.devname ++ [colon] ++ (pathname names ++ [0]))
      else (vfsGetcwdSub k).run ⟨s.hold k, mem, iob⟩ = .error .noMem ⟨s.hold k, mem', iob'⟩ := by
  have hname : vfsGetDevname.run ⟨s.hold k, mem, iob⟩ = .ok v.devname ⟨s.hold k, mem, iob⟩ := by
    have hfind : ((s.hold k).vdevList.find? fun v ↦ v.mounted) = some v := hdev
    rw [vfsGetDevname, get_bind_run]
    dsimp only
    rw [hfind, run_pure]
  rw [vfsGetcwdSub, bind_of_ok hname]
  -- The name of the device does not fit, or the colon does not, or the path decides.
  by_cases hfitsName : v.devname.length ≤ iob.ioResid
  swap
  · obtain ⟨mem', iob', hframe, hrun⟩ := iobufMove_error (s.hold k) mem (not_le.mp hfitsName)
    refine ⟨mem', iob', hframe, ?_⟩
    rw [if_neg (by omega)]
    exact bind_of_error hrun _
  obtain ⟨iob₁, hbase₁, hresid₁, hrun₁⟩ := iobufMove_ok (s.hold k) mem hfitsName
  rw [bind_of_ok hrun₁]
  have hframe₁ : ∀ a, a < iob.ioBase ∨ iob.ioBase + iob.ioResid ≤ a →
      memcpy mem iob.ioBase (ofList v.devname) 0 v.devname.length a = mem a := fun a ha ↦
    memcpy_of_notMem (by omega)
  by_cases hfitsColon : [colon].length ≤ iob₁.ioResid
  swap
  · obtain ⟨mem', iob', hframe, hrun⟩ := iobufMove_error (s.hold k)
      (memcpy mem iob.ioBase (ofList v.devname) 0 v.devname.length) (not_le.mp hfitsColon)
    rw [List.length_singleton] at hfitsColon
    refine ⟨mem', iob', fun a ha ↦ (hframe a (by omega)).trans (hframe₁ a ha), ?_⟩
    rw [if_neg (by omega)]
    exact bind_of_error hrun _
  obtain ⟨iob₂, hbase₂, hresid₂, hrun₂⟩ := iobufMove_ok (s.hold k)
    (memcpy mem iob.ioBase (ofList v.devname) 0 v.devname.length) hfitsColon
  rw [bind_of_ok hrun₂]
  rw [List.length_singleton] at hfitsColon hbase₂ hresid₂
  have hresid : iob₂.ioResid = iob.ioResid - (v.devname.length + 1) := by omega
  have hbase : iob₂.ioBase = iob.ioBase + (v.devname.length + 1) := by omega
  obtain ⟨mem', iob', hframe, hrun⟩ := vopNamefile_eq h hpath hk
    (memcpy (memcpy mem iob.ioBase (ofList v.devname) 0 v.devname.length) iob₁.ioBase
      (ofList [colon]) 0 [colon].length) iob₂
  have hname₁ : Spells mem' iob.ioBase v.devname := by
    refine ((spells_ofList v.devname).memcpy mem iob.ioBase).congr fun c hc hlt ↦ ?_
    rw [hframe c (by omega), memcpy_of_notMem (by omega)]
  have hcolon : Spells mem' (iob.ioBase + v.devname.length) [colon] := by
    refine ((spells_ofList [colon]).memcpy
      (memcpy mem iob.ioBase (ofList v.devname) 0 v.devname.length) _).congr fun c hc hlt ↦ ?_
    rw [List.length_singleton] at hlt
    rw [hframe c (by omega), hbase₁]
  refine ⟨mem', iob', fun a ha ↦ ?_, ?_⟩
  · rw [hframe a (by omega), memcpy_of_notMem (by rw [List.length_singleton]; omega)]
    exact hframe₁ a ha
  · rw [← hresid]
    split_ifs at hrun ⊢ with hfits
    · refine ⟨hrun.1, (hname₁.append hcolon).append ?_⟩
      rw [List.length_append, List.length_singleton, ← hbase]
      exact hrun.2
    · exact hrun

/-- A root directory with the entries `..` and `a`. -/
def treeRoot : SfsDiskInode := .ofDirect 512 sfsTypeDir 2 [4, 5]

/-- The directory `a`, with the entry `..` and an empty slot. -/
def treeDir : SfsDiskInode := .ofDirect 512 sfsTypeDir 2 [6, 7]

/-- The file system with these two. -/
def treeFs : SfsFs :=
  { sampleFs with
    dev := { sampleFs.dev with
      blk := fun b ↦ if b = 4 ∨ b = 6 then ofList [1, 0, 0, 0, 46, 46]
        else if b = 5 then ofList [3, 0, 0, 0, 97] else if b = 7 then zero
        else sampleFs.dev.blk b }
    inodes := fun k ↦ if k = 1 then some ⟨treeRoot, false, 1, 1, 0⟩
      else if k = 3 then some ⟨treeDir, false, 1, 1, 0⟩ else none
    inodeList := [3, 1] }

/-- The machine in the directory `a`, with the file system mounted on the device `d`. -/
def treeVfs : Vfs where
  sfs := treeFs
  dev _ := ⟨1, 0, fun _ ↦ none, none⟩
  vdevList := [⟨[100], 0, true, true⟩]
  pwd := some (.sfs 3)
  bootfsNode := some (.sfs 1)
  grants := []

/-- The inodes of the tree. -/
def treeLive : Finset ℕ := {1, 3}

/-- Who owns what in the tree. -/
def treeOwners : List (Owner × ℕ) :=
  [(.super, 0), (.inode 1, 1), (.freemap 0, 2), (.inode 3, 3), (.data 1 0, 4), (.data 1 1, 5),
    (.data 3 0, 6), (.data 3 1, 7)]

theorem mem_treeLive {k : ℕ} (hk : k ∈ treeLive) : k = 1 ∨ k = 3 := by
  rwa [treeLive, Finset.mem_insert, Finset.mem_singleton] at hk

theorem treeFs_cached {k : ℕ} {sin : SfsInode} (hk : treeFs.inodes k = some sin) :
    (k = 1 ∧ sin = ⟨treeRoot, false, 1, 1, 0⟩) ∨ (k = 3 ∧ sin = ⟨treeDir, false, 1, 1, 0⟩) := by
  by_cases h1 : k = 1
  · subst h1
    exact .inl ⟨rfl, (Option.some.inj hk).symm⟩
  by_cases h3 : k = 3
  · subst h3
    exact .inr ⟨rfl, (Option.some.inj hk).symm⟩
  · have hnone : treeFs.inodes k = none := (if_neg h1).trans (if_neg h3)
    rw [hnone] at hk
    cases hk

theorem mem_treeOwners {o : Owner} {c : ℕ} (h : treeFs.own treeLive o = some c) :
    (o, c) ∈ treeOwners := by
  cases o with
  | super =>
    cases h
    decide
  | freemap j =>
    rw [SfsFs.own] at h
    split at h
    · next hj =>
      change j < sfsFreemapBlocks sampleFs.super at hj
      rw [sfsFreemapBlocks_sample] at hj
      obtain rfl : j = 0 := by omega
      cases h
      decide
    · cases h
  | inode k =>
    rw [SfsFs.own] at h
    split at h
    · next hk =>
      cases h
      rcases mem_treeLive hk with rfl | rfl <;> decide
    · cases h
  | indirect k =>
    rw [SfsFs.own] at h
    split at h
    · next hk => rcases mem_treeLive hk.1 with rfl | rfl <;> exact absurd rfl hk.2
    · cases h
  | data k i =>
    rw [SfsFs.own] at h
    split at h
    · next hk =>
      obtain ⟨hk, hi⟩ := hk
      rcases mem_treeLive hk with rfl | rfl
      · have hi' : i < 2 := hi
        interval_cases i <;> cases h <;> decide
      · have hi' : i < 2 := hi
        interval_cases i <;> cases h <;> decide
    · cases h

theorem treeFs_owned : treeFs.Owned treeLive where
  ok :=
    { faults := sampleFs_ok.faults
      blocks_le := sampleFs_ok.blocks_le
      wf := sampleFs_ok.wf
      blocks_le_nbits := sampleFs_ok.blocks_le_nbits
      unused := sampleFs_ok.unused }
  exact :=
    { covers := fun b hb hfree ↦ by
        have hb' : b < 32 := hb
        change ¬sampleFs.freemap.isFree b = true at hfree
        rw [sampleFs_freemap, isFree_sampleFreemap] at hfree
        have hlt : b < 8 := by omega
        interval_cases b
        · exact ⟨.super, rfl⟩
        · exact ⟨.inode 1, rfl⟩
        · refine ⟨.freemap 0, ?_⟩
          have hone : 0 < sfsFreemapBlocks treeFs.super := by
            change 0 < sfsFreemapBlocks sampleFs.super
            rw [sfsFreemapBlocks_sample]
            exact Nat.one_pos
          rw [SfsFs.own, if_pos hone]
          rfl
        · exact ⟨.inode 3, rfl⟩
        · exact ⟨.data 1 0, rfl⟩
        · exact ⟨.data 1 1, rfl⟩
        · exact ⟨.data 3 0, rfl⟩
        · exact ⟨.data 3 1, rfl⟩
      held := fun {o c} h ↦ by
        have hmem : ∀ p ∈ treeOwners, p.2 < 8 := by decide
        have hlt := hmem _ (mem_treeOwners h)
        refine ⟨?_, ?_⟩
        · change c < 32
          omega
        · change ¬sampleFs.freemap.isFree c = true
          rw [sampleFs_freemap, isFree_sampleFreemap]
          omega
      inj := fun {o o' c} h h' ↦ by
        have hinj : ∀ p ∈ treeOwners, ∀ q ∈ treeOwners, p.2 = q.2 → p.1 = q.1 := by decide
        exact hinj _ (mem_treeOwners h) _ (mem_treeOwners h') rfl }
  null k hk i hi := by
    have hused : ∀ b, b ≠ 0 → b < 8 → treeFs.Used b := fun b h h' ↦ sampleFs_used h h'
    rcases mem_treeLive hk with rfl | rfl
    · refine (mapped_ofDirect (by decide) (fun b hb ↦ ?_) (by decide) _ _ _).null i hi
      fin_cases hb
      · exact hused _ (by decide) (by decide)
      · exact hused _ (by decide) (by decide)
    · refine (mapped_ofDirect (by decide) (fun b hb ↦ ?_) (by decide) _ _ _).null i hi
      fin_cases hb
      · exact hused _ (by decide) (by decide)
      · exact hused _ (by decide) (by decide)
  cached k sin h := by
    rcases treeFs_cached h with ⟨rfl, -⟩ | ⟨rfl, -⟩ <;> decide
  root := ⟨by decide, by decide⟩

/-- What the slots hold. -/
theorem treeFs_dirents : treeFs.usedSlots treeRoot = [0, 1] ∧ treeFs.usedSlots treeDir = [0] ∧
    ((treeFs.dirent treeRoot 0).ino = 1 ∧ (treeFs.dirent treeRoot 0).str = dotdot) ∧
    ((treeFs.dirent treeRoot 1).ino = 3 ∧ (treeFs.dirent treeRoot 1).str = [97]) ∧
    (treeFs.dirent treeDir 0).ino = 1 ∧ (treeFs.dirent treeDir 0).str = dotdot := by
  decide +kernel

/-- What the entries of a directory of the tree are. -/
theorem treeFs_entry {p i : ℕ} (hp : p ∈ treeLive) (hi : i ∈ treeFs.usedSlots (treeFs.dinOf p)) :
    ((treeFs.dirent (treeFs.dinOf p) i).ino = 1 ∧
        (treeFs.dirent (treeFs.dinOf p) i).str = dotdot) ∨
      (p = 1 ∧ i = 1 ∧ (treeFs.dirent (treeFs.dinOf p) i).ino = 3 ∧
        (treeFs.dirent (treeFs.dinOf p) i).str = [97]) := by
  obtain ⟨hroot, hdir, hup, ha, hdirUp⟩ := treeFs_dirents
  rcases mem_treeLive hp with rfl | rfl
  · change i ∈ treeFs.usedSlots treeRoot at hi
    rw [hroot, List.mem_cons, List.mem_singleton] at hi
    rcases hi with rfl | rfl
    · exact .inl hup
    · exact .inr ⟨rfl, rfl, ha⟩
  · change i ∈ treeFs.usedSlots treeDir at hi
    rw [hdir, List.mem_singleton] at hi
    obtain rfl := hi
    exact .inl hdirUp

/-- Both directories have the root as their parent. -/
theorem treeVfs_parent {k : ℕ} (hk : k ∈ treeLive) :
    treeVfs.child (.sfs k) dotdot = some (.sfs 1) := by
  obtain ⟨hroot, hdir, hup, -, hdirUp⟩ := treeFs_dirents
  have hfind : ∀ (din : SfsDiskInode) (rest : List ℕ), treeFs.usedSlots din = 0 :: rest →
      (treeFs.dirent din 0).str = dotdot → treeFs.findEntry din dotdot = some 0 := by
    intro din rest hslots hstr
    rw [SfsFs.findEntry, hslots, List.find?_cons_of_pos (by rw [hstr]; decide)]
  rcases mem_treeLive hk with rfl | rfl
  · change (if treeRoot.type = sfsTypeDir then (treeFs.findEntry treeRoot dotdot).map fun i ↦
      Node.sfs (treeFs.dirent treeRoot i).ino else none) = some (.sfs 1)
    rw [if_pos (by decide), hfind _ _ hroot hup.2, Option.map_some, hup.1]
  · change (if treeDir.type = sfsTypeDir then (treeFs.findEntry treeDir dotdot).map fun i ↦
      Node.sfs (treeFs.dirent treeDir i).ino else none) = some (.sfs 1)
    rw [if_pos (by decide), hfind _ _ hdir hdirUp.2, Option.map_some, hdirUp.1]

theorem treeVfs_dirTree : treeVfs.DirTree treeLive where
  owned := treeFs_owned
  grants := rfl
  linked k hk := by rcases mem_treeLive hk with rfl | rfl <;> decide
  kind k hk := by rcases mem_treeLive hk with rfl | rfl <;> exact .inl rfl
  entries k hk _ i hi := by
    change (treeFs.dirent (treeFs.dinOf k) i).ino ∈ treeLive ∧
      slash ∉ (treeFs.dirent (treeFs.dinOf k) i).str
    rcases treeFs_entry hk hi with ⟨hino, hstr⟩ | ⟨-, -, hino, hstr⟩
    · rw [hino, hstr]
      decide
    · rw [hino, hstr]
      decide
  pwd n hn := by
    obtain rfl := Option.some.inj hn
    exact ⟨3, _, rfl, rfl, rfl, Nat.one_pos⟩
  boot n hn := by
    obtain rfl := Option.some.inj hn
    exact ⟨1, _, rfl, rfl, rfl, Nat.one_pos⟩
  root := ⟨1, _, rfl, rfl, rfl, Nat.one_pos⟩
  devices _ := Nat.one_pos
  room n := by
    cases n with
    | dev d => exact ⟨Nat.zero_le _, (by decide : 2 < maxInodeCount)⟩
    | sfs ino =>
      change (treeFs.counts ino).2 ≤ (treeFs.counts ino).1 ∧
        (treeFs.counts ino).1 + 1 < maxInodeCount
      cases hk : treeFs.inodes ino with
      | none =>
        rw [SfsFs.counts, hk]
        decide
      | some sin =>
        rw [SfsFs.counts_of_cached hk]
        rcases treeFs_cached hk with ⟨-, rfl⟩ | ⟨-, rfl⟩ <;> decide
  referenced k sin hk := by
    rcases treeFs_cached hk with ⟨-, rfl⟩ | ⟨-, rfl⟩ <;> exact Nat.one_pos
  root_parent := treeVfs_parent (by decide)
  parent p hp _ i hi _ _ hdotdot := by
    rcases treeFs_entry hp hi with ⟨-, hstr⟩ | ⟨rfl, rfl, hino, -⟩
    · exact absurd hstr hdotdot
    · change (treeFs.dirent (treeFs.dinOf 1) 1).ino ≠ 1 ∧
        treeVfs.child (.sfs (treeFs.dirent (treeFs.dinOf 1) 1).ino) dotdot = some (.sfs 1)
      rw [hino]
      exact ⟨by decide, treeVfs_parent (by decide)⟩
  unique p hp _ i hi j hj _ _ hdotdot hsame := by
    rcases treeFs_entry hp hi with ⟨-, hstr⟩ | ⟨rfl, rfl, hino, hstr⟩
    · exact absurd hstr hdotdot
    rcases treeFs_entry hp hj with ⟨hino', -⟩ | ⟨-, rfl, -, -⟩
    · exact absurd ((hino'.symm.trans hsame).trans hino) (by decide)
    · rfl

theorem treeVfs_pathTo : treeVfs.PathTo 3 [[97]] := by
  obtain ⟨hroot, -, -, ha, -⟩ := treeFs_dirents
  have hslot : 1 ∈ treeFs.usedSlots (treeFs.dinOf 1) := by
    change 1 ∈ treeFs.usedSlots treeRoot
    rw [hroot]
    decide
  have hino : (treeVfs.sfs.dirent (treeVfs.sfs.dinOf sfsBlknRoot) 1).ino = 3 := ha.1
  have hstr : (treeVfs.sfs.dirent (treeVfs.sfs.dinOf sfsBlknRoot) 1).str = [97] := ha.2
  have hpath := PathTo.entry (s := treeVfs) .root hslot (by rw [hino]; rfl)
    (by rw [hstr]; decide) (by rw [hstr]; decide)
  rwa [hino, hstr] at hpath

end Cwd

end Ucore
