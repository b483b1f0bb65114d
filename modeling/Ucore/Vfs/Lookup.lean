import Mathlib.Algebra.Group.Pi.Basic
import Ucore.Sfs.Counts

/-!
# Inodes and paths

The layer above the file systems: the counts of an inode in `kern/fs/vfs/inode.c`, the table of
devices in `vfsdev.c`, and `get_device` and `vfs_lookup` of `vfslookup.c`, with `sfs_lookup` and
`dev_lookup` below them. There is one file system, and its inodes are known by their numbers.

`ref_count` and `open_count` are read as numbers that may be negative, so that what a routine does
to them can be added up (`Shifts`): a lookup that returns an inode has added one reference to it,
and one that fails has changed no count (`refers_vfsLookup`).
-/

namespace Ucore

open Bytes Prog

def maxInodeCount : ℕ := 0x10000

/-- A `struct inode`: one of the file system, or one of a device. -/
inductive Node
  | sfs (ino : ℕ)
  | dev (d : ℕ)
  deriving DecidableEq

/-- The inode of a device, with what `d_open` and `d_close` return. -/
structure DevNode where
  refCount : ℕ
  openCount : ℕ
  dOpen : BitVec 32 → Option Errno
  dClose : Option Errno

/-- `vfs_dev_t`. `mounted` says whether `fs` points to the file system. -/
structure VfsDev where
  devname : List UInt8
  devnode : ℕ
  mounted : Bool
  mountable : Bool

/-- What the layer works on. -/
structure Vfs where
  sfs : SfsFs
  dev : ℕ → DevNode
  vdevList : List VfsDev
  /-- `current->filesp->pwd`. -/
  pwd : Option Node
  /-- `bootfs_node`. -/
  bootfsNode : Option Node
  /-- Whether the calls of `kmalloc` to come are granted; those behind the end of the list are. -/
  grants : List Bool

/-- A routine of the layer. -/
abbrev VfsProg (α : Type) : Type := Prog Errno Vfs α

namespace Vfs

/-- `ref_count` and `open_count` of an inode. -/
def counts (s : Vfs) : Node → ℕ × ℕ
  | .sfs ino => s.sfs.counts ino
  | .dev d => ((s.dev d).refCount, (s.dev d).openCount)

/-- Replace the counts of an inode. -/
def setCounts (s : Vfs) (n : Node) (c : ℕ × ℕ) : Vfs :=
  match n with
  | .sfs ino =>
    match s.sfs.inodes ino with
    | some sin =>
      { s with sfs := s.sfs.setInode ino { sin with refCount := c.1, openCount := c.2 } }
    | none => s
  | .dev d =>
    { s with dev := Function.update s.dev d { s.dev d with refCount := c.1, openCount := c.2 } }

/-- The inode is in memory. -/
def InMemory (s : Vfs) : Node → Prop
  | .sfs ino => s.sfs.inodes ino ≠ none
  | .dev _ => True

instance (s : Vfs) (n : Node) : Decidable (s.InMemory n) :=
  match n with
  | .sfs ino => decidable_of_iff ((s.sfs.inodes ino).isSome = true) Option.isSome_iff_ne_none
  | .dev _ => inferInstanceAs (Decidable True)

end Vfs

/-- A routine of the file system. -/
def onSfs {α : Type} (m : Prog Errno SfsFs α) : VfsProg α :=
  m.zoom Vfs.sfs fun sfs s ↦ { s with sfs := sfs }

def kmalloc : VfsProg Unit := do
  let s ← get
  modify fun s ↦ { s with grants := s.grants.tail }
  if s.grants.head? = some false then fail .noMem else pure ()

/-! ## The counts of an inode -/

/-- `inode_check`, before every operation. -/
def inodeCheck (n : Node) : VfsProg Unit := do
  let s ← get
  assert ((s.counts n).2 ≤ (s.counts n).1 ∧ (s.counts n).1 < maxInodeCount ∧
    (s.counts n).2 < maxInodeCount)

/-- Write the counts of an inode, which is in memory. -/
def putCounts (n : Node) (f : ℕ × ℕ → ℕ × ℕ) : VfsProg Unit := do
  let s ← get
  assert (s.InMemory n)
  modify fun s ↦ s.setCounts n (f (s.counts n))

/-- `vop_reclaim`; the inode of a device has no such operation. -/
def vopReclaim (n : Node) : VfsProg Unit := do
  inodeCheck n
  match n with
  | .sfs ino => onSfs (sfsReclaim ino)
  | .dev _ => halt

def vopClose (n : Node) : VfsProg Unit := do
  inodeCheck n
  match n with
  | .sfs ino => onSfs (sfsFsync ino)
  | .dev d => do
    let s ← get
    match (s.dev d).dClose with
    | some e => fail e
    | none => pure ()

def inodeRefInc (n : Node) : VfsProg Unit := putCounts n fun c ↦ (c.1 + 1, c.2)

def inodeOpenInc (n : Node) : VfsProg Unit := putCounts n fun c ↦ (c.1, c.2 + 1)

/-- `inode_ref_dec`. An error of `vop_reclaim` is only printed. -/
def inodeRefDec (n : Node) : VfsProg Unit := do
  let s ← get
  assert (0 < (s.counts n).1)
  putCounts n fun c ↦ (c.1 - 1, c.2)
  if (s.counts n).1 - 1 = 0 then do
    let _ ← attempt (vopReclaim n)
    pure ()
  else
    pure ()

/-- `inode_open_dec`. An error of `vop_close` is only printed. -/
def inodeOpenDec (n : Node) : VfsProg Unit := do
  let s ← get
  assert (0 < (s.counts n).2)
  putCounts n fun c ↦ (c.1, c.2 - 1)
  if (s.counts n).2 - 1 = 0 then do
    let _ ← attempt (vopClose n)
    pure ()
  else
    pure ()

/-- Run `m`, drop a reference to `n`, and end as `m` has ended. -/
def thenRefDec {α : Type} (m : VfsProg α) (n : Node) : VfsProg α := do
  let r ← attempt m
  inodeRefDec n
  match r with
  | .ok a => pure a
  | .error e => fail e

/-! ## Looking up a name -/

/-- `sfs_load_inode`, with its two calls of `kmalloc`. -/
def sfsLoadNode (ino : ℕ) : VfsProg Unit := do
  let s ← get
  match s.sfs.inodes ino with
  | some sin => onSfs (putSin ino sin.revive)
  | none => do
    kmalloc
    let inuse ← onSfs (sfsBlockInuse ino)
    assert (inuse = true)
    let b ← onSfs (sfsRbuf zero 0 SfsDiskInode.sizeof ino 0)
    assert ((SfsDiskInode.ofBytes b).nlinks ≠ 0)
    kmalloc
    let sin ← onSfs (sfsCreateInode (SfsDiskInode.ofBytes b))
    modify fun s ↦ { s with sfs := s.sfs.setLinks ino sin }

/-- `sfs_lookup_once`. `sfs_dirent_search_nolock` takes memory for an entry, after it has looked at
the length of the name. -/
def sfsLookupNode (ino : ℕ) (name : List UInt8) : VfsProg ℕ := do
  assert (name.length ≤ sfsMaxFnameLen)
  kmalloc
  let r ← onSfs (sfsDirentSearchNolock ino name)
  sfsLoadNode r.2
  pure r.2

/-- The number of `'/'`. -/
def slash : UInt8 := 47

/-- The number of `':'`. -/
def colon : UInt8 := 58

def sfsLookup (ino : ℕ) (path : List UInt8) : VfsProg Node := do
  assert (path ≠ [] ∧ path.head? ≠ some slash)
  inodeRefInc (.sfs ino)
  let sin ← onSfs (getSin ino)
  if sin.din.type ≠ sfsTypeDir then
    thenRefDec (fail .notDir) (.sfs ino)
  else
    thenRefDec (do let sub ← sfsLookupNode ino path; pure (.sfs sub)) (.sfs ino)

def devLookup (d : ℕ) (path : List UInt8) : VfsProg Node :=
  if path ≠ [] then
    fail .noent
  else do
    inodeRefInc (.dev d)
    pure (.dev d)

/-- `vop_lookup`. Of the inodes of the file system only directories have the operation. -/
def vopLookup (n : Node) (path : List UInt8) : VfsProg Node := do
  inodeCheck n
  match n with
  | .sfs ino => do
    let sin ← onSfs (getSin ino)
    assert (sin.din.type = sfsTypeDir)
    sfsLookup ino path
  | .dev d => devLookup d path

/-! ## Looking up a path -/

/-- Where `get_device` begins, from the first `':'` or `'/'` of a path. -/
inductive PathHead
  /-- A path relative to the current directory. -/
  | current
  /-- `device:path`. -/
  | device (name : List UInt8)
  /-- `/path`. -/
  | boot
  /-- `:path`. -/
  | root

/-- The loop of `get_device`, with the subpath. -/
def pathHead (path : List UInt8) : PathHead × List UInt8 :=
  let name := path.takeWhile fun c ↦ c ≠ colon ∧ c ≠ slash
  match path.dropWhile fun c ↦ c ≠ colon ∧ c ≠ slash with
  | [] => (.current, path)
  | c :: rest =>
    if c = colon then
      if name = [] then (.root, rest.dropWhile (· = slash))
      else (.device name, rest.dropWhile (· = slash))
    else
      if name = [] then (.boot, rest.dropWhile (· = slash)) else (.current, path)

/-- The path after `get_device`, which ends the name of a device with a zero. -/
def pathLeft (path : List UInt8) : List UInt8 :=
  match (pathHead path).1 with
  | .device name => name
  | _ => path

/-- `fsop_get_root`; `sfs_get_root` stops the machine when the root cannot be loaded. -/
def fsopGetRoot : VfsProg Node := do
  let r ← attempt (sfsLoadNode sfsBlknRoot)
  match r with
  | .ok () => pure (.sfs sfsBlknRoot)
  | .error _ => halt

def vfsGetRoot (devname : List UInt8) : VfsProg Node := do
  let s ← get
  match s.vdevList.find? fun v ↦ v.devname = devname with
  | none => fail .noDev
  | some vdev =>
    if vdev.mounted then
      fsopGetRoot
    else if vdev.mountable then
      fail .naDev
    else do
      inodeRefInc (.dev vdev.devnode)
      pure (.dev vdev.devnode)

/-- `vfs_get_curdir` and `vfs_get_bootfs`, on the inode that they hand out. -/
def getNode (node : Option Node) : VfsProg Node :=
  match node with
  | none => fail .noent
  | some n => do
    inodeRefInc n
    pure n

def vfsGetCurdir : VfsProg Node := do
  let s ← get
  getNode s.pwd

def vfsGetBootfs : VfsProg Node := do
  let s ← get
  getNode s.bootfsNode

/-- The part of `get_device` for `:path`. Only inodes of the file system have an `in_fs`. -/
def curdirRoot : VfsProg Node := do
  let node ← vfsGetCurdir
  match node with
  | .dev _ => halt
  | .sfs _ => do
    let root ← fsopGetRoot
    inodeRefDec node
    pure root

/-- `get_device`, up to the subpath. -/
def getDevice (path : List UInt8) : VfsProg Node :=
  match (pathHead path).1 with
  | .current => vfsGetCurdir
  | .device name => vfsGetRoot name
  | .boot => vfsGetBootfs
  | .root => curdirRoot

def vfsLookup (path : List UInt8) : VfsProg Node := do
  let node ← getDevice path
  if (pathHead path).2 ≠ [] then thenRefDec (vopLookup node (pathHead path).2) node else pure node

/-! ## What is added to the counts -/

namespace Vfs

/-- `ref_count` of every inode. -/
def refs (s : Vfs) (n : Node) : ℤ := (s.counts n).1

/-- `open_count` of every inode. -/
def opens (s : Vfs) (n : Node) : ℤ := (s.counts n).2

/-- From `s` to `t`, `f` has been added to the numbers of references, and `g` to `open_count`. -/
structure Shifts (f g : Node → ℤ) (s t : Vfs) : Prop where
  refs : t.refs = s.refs + f
  opens : t.opens = s.opens + g

section Shifts

variable {s t u : Vfs} {f f' g g' : Node → ℤ} {n : Node}

theorem Shifts.of_counts (h : t.counts = s.counts) : Shifts 0 0 s t where
  refs := by
    rw [add_zero]
    funext n
    rw [Vfs.refs, Vfs.refs, h]
  opens := by
    rw [add_zero]
    funext n
    rw [Vfs.opens, Vfs.opens, h]

theorem Shifts.refl (s : Vfs) : Shifts 0 0 s s := .of_counts rfl

theorem Shifts.trans (h : Shifts f g s t) (h' : Shifts f' g' t u) :
    Shifts (f + f') (g + g') s u where
  refs := by rw [h'.refs, h.refs, add_assoc]
  opens := by rw [h'.opens, h.opens, add_assoc]

/-- What is added to nothing. -/
theorem Shifts.trans_of_same (h : Shifts f g s t) (h' : Shifts 0 0 t u) : Shifts f g s u := by
  have hboth := h.trans h'
  rwa [add_zero, add_zero] at hboth

theorem Shifts.of_same_trans (h : Shifts 0 0 s t) (h' : Shifts f g t u) : Shifts f g s u := by
  have hboth := h.trans h'
  rwa [zero_add, zero_add] at hboth

/-- Counts that are as they were before. -/
theorem Shifts.counts_eq (h : Shifts 0 0 s t) : t.counts = s.counts := by
  have hrefs := h.refs
  have hopens := h.opens
  rw [add_zero] at hrefs hopens
  funext n
  exact Prod.ext (Int.ofNat.inj (congrFun hrefs n)) (Int.ofNat.inj (congrFun hopens n))

theorem counts_setCounts (h : s.InMemory n) (c : ℕ × ℕ) :
    (s.setCounts n c).counts = Function.update s.counts n c := by
  cases n with
  | sfs ino =>
    obtain ⟨sin, hsin⟩ := Option.ne_none_iff_exists'.mp h
    have hset : s.setCounts (.sfs ino) c =
        { s with sfs := s.sfs.setInode ino { sin with refCount := c.1, openCount := c.2 } } := by
      rw [setCounts, hsin]
    rw [hset]
    funext m
    cases m with
    | sfs i =>
      change (s.sfs.setInode ino _).counts i = _
      rw [SfsFs.counts_setInode]
      by_cases hi : i = ino
      · rw [hi, Function.update_self, Function.update_self]
      · rw [Function.update_of_ne hi, Function.update_of_ne fun hc ↦ hi (Node.sfs.inj hc)]
        rfl
    | dev d =>
      rw [Function.update_of_ne fun hc ↦ by cases hc]
      rfl
  | dev d =>
    funext m
    cases m with
    | sfs i =>
      rw [Function.update_of_ne fun hc ↦ by cases hc]
      rfl
    | dev d' =>
      by_cases hd : d' = d
      · have hset : (s.setCounts (.dev d) c).dev d' =
            { s.dev d with refCount := c.1, openCount := c.2 } := hd ▸ Function.update_self ..
        rw [counts, hset, hd, Function.update_self]
      · have hset : (s.setCounts (.dev d) c).dev d' = s.dev d' := Function.update_of_ne hd ..
        rw [counts, hset, Function.update_of_ne fun hc ↦ hd (Node.dev.inj hc), counts]

end Shifts

end Vfs

section Counts

open Vfs

variable {α : Type} {s : Vfs} {n : Node}

/-- A routine of the file system that leaves the counts of its inodes alone. -/
theorem moves_onSfs {m : Prog Errno SfsFs α} (h : Moves (Same SfsFs.counts) m) :
    Moves (Same Vfs.counts) (onSfs m) := by
  have hsame : ∀ (s : Vfs) (sfs : SfsFs), Same SfsFs.counts s.sfs sfs →
      Same Vfs.counts s { s with sfs := sfs } := by
    intro s sfs hcounts
    funext n
    cases n with
    | sfs ino => exact congrFun hcounts ino
    | dev d => rfl
  intro s
  have hrun := h s.sfs
  rw [onSfs, run_zoom]
  cases hm : m.run s.sfs with
  | ok a t =>
    rw [hm] at hrun
    exact hsame s t hrun
  | error e t =>
    rw [hm] at hrun
    exact hsame s t hrun
  | panic => trivial

theorem moves_kmalloc : Moves (Same Vfs.counts) kmalloc := by
  refine Moves.get.bind fun s ↦ Moves.bind (fun t ↦ ?_) fun _ ↦
    Moves.ite (fun _ ↦ Moves.fail _) fun _ ↦ Moves.pure _
  exact Eq.refl t.counts

theorem moves_inodeCheck (n : Node) : Moves (Same Vfs.counts) (inodeCheck n) :=
  Moves.get.bind fun _ ↦ Moves.assert _

theorem moves_vopReclaim (n : Node) : Moves (Same Vfs.counts) (vopReclaim n) := by
  refine (moves_inodeCheck n).bind fun _ ↦ ?_
  cases n with
  | sfs ino => exact moves_onSfs (moves_sfsReclaim ino)
  | dev d => exact Moves.halt

theorem moves_vopClose (n : Node) : Moves (Same Vfs.counts) (vopClose n) := by
  refine (moves_inodeCheck n).bind fun _ ↦ ?_
  cases n with
  | sfs ino => exact moves_onSfs (moves_sfsFsync ino)
  | dev d =>
    refine Moves.get.bind fun s ↦ ?_
    split
    · exact Moves.fail _
    · exact Moves.pure _

theorem putCounts_sat (n : Node) (f : ℕ × ℕ → ℕ × ℕ) (s : Vfs) : ((putCounts n f).run s).Sat
    (fun _ t ↦ t.counts = Function.update s.counts n (f (s.counts n))) fun _ _ ↦ False := by
  rw [putCounts, get_bind_run]
  exact sat_assert_bind fun hmem ↦ counts_setCounts hmem _

/-- Writing the counts of one inode, as a shift. -/
theorem shifts_of_update {t : Vfs} {c : ℕ × ℕ} {i j : ℤ}
    (h : t.counts = Function.update s.counts n c) (hi : (c.1 : ℤ) = (s.counts n).1 + i)
    (hj : (c.2 : ℤ) = (s.counts n).2 + j) : Shifts (Pi.single n i) (Pi.single n j) s t where
  refs := by
    funext m
    rw [Vfs.refs, h, Pi.add_apply, Vfs.refs]
    by_cases hm : m = n
    · rw [hm, Function.update_self, Pi.single_eq_same, hi]
    · rw [Function.update_of_ne hm, Pi.single_eq_of_ne hm, add_zero]
  opens := by
    funext m
    rw [Vfs.opens, h, Pi.add_apply, Vfs.opens]
    by_cases hm : m = n
    · rw [hm, Function.update_self, Pi.single_eq_same, hj]
    · rw [Function.update_of_ne hm, Pi.single_eq_of_ne hm, add_zero]

theorem inodeRefInc_sat (n : Node) (s : Vfs) : ((inodeRefInc n).run s).Sat
    (fun _ t ↦ Shifts (Pi.single n 1) 0 s t) fun _ _ ↦ False := by
  refine (putCounts_sat n _ s).imp (fun _ t ht ↦ ?_) fun _ _ h ↦ h
  rw [← Pi.single_zero n]
  exact shifts_of_update ht (by push_cast; rfl) (add_zero _).symm

theorem inodeOpenInc_sat (n : Node) (s : Vfs) : ((inodeOpenInc n).run s).Sat
    (fun _ t ↦ Shifts 0 (Pi.single n 1) s t) fun _ _ ↦ False := by
  refine (putCounts_sat n _ s).imp (fun _ t ht ↦ ?_) fun _ _ h ↦ h
  rw [← Pi.single_zero n]
  exact shifts_of_update ht (add_zero _).symm (by push_cast; rfl)

/-- What is run for its effect only, and does not change a count. -/
theorem attempt_sat {m : VfsProg α} (h : Moves (Same Vfs.counts) m) (s : Vfs) :
    ((do let _ ← attempt m; pure () : VfsProg Unit).run s).Sat (fun _ t ↦ Shifts 0 0 s t)
      fun _ _ ↦ False := by
  have hm := h s
  rw [run_bind, run_attempt]
  cases hrun : m.run s with
  | ok a t =>
    rw [hrun] at hm
    exact .of_counts hm
  | error e t =>
    rw [hrun] at hm
    exact .of_counts hm
  | panic => trivial

theorem inodeRefDec_sat (n : Node) (s : Vfs) : ((inodeRefDec n).run s).Sat
    (fun _ t ↦ Shifts (-Pi.single n 1) 0 s t) fun _ _ ↦ False := by
  rw [inodeRefDec, get_bind_run]
  refine sat_assert_bind fun hpos ↦ sat_bind (putCounts_sat n _ s) fun _ t ht ↦ ?_
  have hshift : Shifts (-Pi.single n 1) 0 s t := by
    rw [← Pi.single_neg, ← Pi.single_zero n]
    refine shifts_of_update ht ?_ (add_zero _).symm
    dsimp only
    omega
  split
  · exact (attempt_sat (moves_vopReclaim n) t).imp (fun _ _ hu ↦ hshift.trans_of_same hu)
      fun _ _ h ↦ h
  · exact hshift

theorem inodeOpenDec_sat (n : Node) (s : Vfs) : ((inodeOpenDec n).run s).Sat
    (fun _ t ↦ Shifts 0 (-Pi.single n 1) s t) fun _ _ ↦ False := by
  rw [inodeOpenDec, get_bind_run]
  refine sat_assert_bind fun hpos ↦ sat_bind (putCounts_sat n _ s) fun _ t ht ↦ ?_
  have hshift : Shifts 0 (-Pi.single n 1) s t := by
    rw [← Pi.single_neg, ← Pi.single_zero n]
    refine shifts_of_update ht (add_zero _).symm ?_
    dsimp only
    omega
  split
  · exact (attempt_sat (moves_vopClose n) t).imp (fun _ _ hu ↦ hshift.trans_of_same hu)
      fun _ _ h ↦ h
  · exact hshift

/-- One reference for the file that was loaded, or none. -/
theorem sfsLoadNode_sat (ino : ℕ) (s : Vfs) : ((sfsLoadNode ino).run s).Sat
    (fun _ t ↦ Shifts (Pi.single (.sfs ino) 1) 0 s t) fun _ t ↦ Shifts 0 0 s t := by
  have hset : ∀ (t : Vfs) (sfs : SfsFs) (sin : SfsInode),
      sfs.counts = Function.update t.sfs.counts ino (sin.refCount, sin.openCount) →
      ({ t with sfs := sfs } : Vfs).counts =
        Function.update t.counts (.sfs ino) (sin.refCount, sin.openCount) := by
    intro t sfs sin hsfs
    funext m
    cases m with
    | sfs i =>
      change sfs.counts i = _
      rw [hsfs]
      by_cases hi : i = ino
      · rw [hi, Function.update_self, Function.update_self]
      · rw [Function.update_of_ne hi, Function.update_of_ne fun hc ↦ hi (Node.sfs.inj hc)]
        rfl
    | dev d =>
      rw [Function.update_of_ne fun hc ↦ by cases hc]
      rfl
  rw [sfsLoadNode, get_bind_run]
  cases hk : s.sfs.inodes ino with
  | some sin =>
    have hcounts : s.counts (.sfs ino) = (sin.refCount, sin.openCount) :=
      SfsFs.counts_of_cached hk
    change Shifts _ 0 s { s with sfs := s.sfs.setInode ino sin.revive }
    rw [← Pi.single_zero (Node.sfs ino)]
    refine shifts_of_update (hset s _ sin.revive (SfsFs.counts_setInode ..)) ?_ ?_
    · rw [hcounts, SfsInode.revive]
      push_cast
      rfl
    · rw [hcounts]
      exact (add_zero _).symm
  | none =>
    -- up to the last step nothing is changed, and the inode has no counts yet
    refine sat_bind ((moves_kmalloc s).imp (fun _ _ h ↦ h) fun _ _ h ↦ .of_counts h)
      fun _ t₁ h₁ ↦ ?_
    refine sat_bind ((moves_onSfs (moves_sfsBlockInuse ino) t₁).imp (fun _ _ h ↦ Eq.trans h h₁)
      fun _ _ h ↦ .of_counts (Eq.trans h h₁)) fun inuse t₂ h₂ ↦ sat_assert_bind fun _ ↦ ?_
    refine sat_bind ((moves_onSfs (moves_sfsRbuf _ _ _ _ _) t₂).imp (fun _ _ h ↦ Eq.trans h h₂)
      fun _ _ h ↦ .of_counts (Eq.trans h h₂)) fun b t₃ h₃ ↦ sat_assert_bind fun _ ↦ ?_
    refine sat_bind ((moves_kmalloc t₃).imp (fun _ _ h ↦ Eq.trans h h₃)
      fun _ _ h ↦ .of_counts (Eq.trans h h₃)) fun _ t₄ h₄ ↦ ?_
    have hcreate : ((onSfs (sfsCreateInode (SfsDiskInode.ofBytes b))).run t₄).Sat
        (fun sin t ↦ t = t₄ ∧ sin.refCount = 1 ∧ sin.openCount = 0) fun _ _ ↦ False := by
      rw [onSfs, run_zoom, sfsCreateInode]
      by_cases htype : (SfsDiskInode.ofBytes b).type = sfsTypeDir ∨
          (SfsDiskInode.ofBytes b).type = sfsTypeFile
      · rw [assert_bind_run htype]
        exact ⟨rfl, rfl, rfl⟩
      · rw [assert_bind_run_neg htype]
        trivial
    refine sat_bind (hcreate.imp (fun _ _ h ↦ h) fun _ _ h ↦ h.elim) fun sin t₅ h₅ ↦ ?_
    obtain ⟨rfl, href, hopen⟩ := h₅
    have hzero : t₅.counts (.sfs ino) = (0, 0) := by
      rw [congrFun h₄]
      change s.sfs.counts ino = (0, 0)
      rw [SfsFs.counts, hk]
    have hsame : Shifts 0 0 s t₅ := .of_counts h₄
    refine hsame.of_same_trans ?_
    rw [← Pi.single_zero (Node.sfs ino)]
    refine shifts_of_update (hset t₅ _ sin (SfsFs.counts_setInode t₅.sfs ino sin)) ?_ ?_
    · rw [hzero, href]
      rfl
    · rw [hzero, hopen]
      rfl

/-- A lookup of one name. -/
theorem sfsLookupNode_sat (ino : ℕ) (name : List UInt8) (s : Vfs) :
    ((sfsLookupNode ino name).run s).Sat
      (fun sub t ↦ Shifts (Pi.single (.sfs sub) 1) 0 s t) fun _ t ↦ Shifts 0 0 s t := by
  refine sat_assert_bind fun _ ↦ ?_
  refine sat_bind ((moves_kmalloc s).imp (fun _ _ h ↦ h) fun _ _ h ↦ .of_counts h) fun _ t₁ h₁ ↦ ?_
  refine sat_bind ((moves_onSfs (moves_sfsDirentSearchNolock ino name) t₁).imp
    (fun _ _ h ↦ Eq.trans h h₁) fun _ _ h ↦ .of_counts (Eq.trans h h₁)) fun r t₂ h₂ ↦ ?_
  have hsame : Shifts 0 0 s t₂ := .of_counts h₂
  refine sat_bind ((sfsLoadNode_sat r.2 t₂).imp (fun _ _ h ↦ hsame.of_same_trans h)
    fun _ _ h ↦ hsame.trans_of_same h) fun _ t₃ h₃ ↦ ?_
  exact h₃

/-- Behind `m` the reference to `n` is gone. -/
theorem thenRefDec_sat {m : VfsProg α} {f : α → Node → ℤ} (n : Node)
    (hm : (m.run s).Sat (fun a t ↦ Shifts (f a) 0 s t) fun _ t ↦ Shifts 0 0 s t) :
    ((thenRefDec m n).run s).Sat (fun a t ↦ Shifts (f a - Pi.single n 1) 0 s t)
      fun _ t ↦ Shifts (-Pi.single n 1) 0 s t := by
  rw [thenRefDec, run_bind, run_attempt]
  cases hrun : m.run s with
  | ok a t =>
    rw [hrun] at hm
    refine sat_bind ((inodeRefDec_sat n t).imp (fun _ u hu ↦ hm.trans hu) fun _ _ h ↦ h.elim)
      fun _ u hu ↦ ?_
    rw [add_zero, ← sub_eq_add_neg] at hu
    exact hu
  | error e t =>
    rw [hrun] at hm
    exact sat_bind ((inodeRefDec_sat n t).imp (fun _ u hu ↦ hm.of_same_trans hu)
      fun _ _ h ↦ h.elim) fun _ _ hu ↦ hu
  | panic => trivial

/-- A routine that returns an inode has added a reference to it, and one that fails nothing. -/
def Refers (m : VfsProg Node) : Prop := ∀ s, (m.run s).Sat
  (fun n t ↦ Shifts (Pi.single n 1) 0 s t) fun _ t ↦ Shifts 0 0 s t

/-- Between a reference that is taken and the same one dropped. -/
theorem refers_between {m : VfsProg Node} (n : Node) (hm : Refers m) {t : Vfs}
    (ht : Shifts (Pi.single n 1) 0 s t) : ((thenRefDec m n).run t).Sat
      (fun a u ↦ Shifts (Pi.single a 1) 0 s u) fun _ u ↦ Shifts 0 0 s u := by
  refine (thenRefDec_sat n (hm t)).imp (fun a u hu ↦ ?_) fun _ u hu ↦ ?_
  · have hboth := ht.trans hu
    rwa [add_zero, add_sub_cancel] at hboth
  · have hboth := ht.trans hu
    rwa [add_zero, add_neg_cancel] at hboth

theorem refers_sfsLookup (ino : ℕ) (path : List UInt8) : Refers (sfsLookup ino path) := by
  intro s
  refine sat_assert_bind fun _ ↦ ?_
  refine sat_bind ((inodeRefInc_sat (.sfs ino) s).imp (fun _ _ h ↦ h) fun _ _ h ↦ h.elim)
    fun _ t ht ↦ ?_
  have hget : ((onSfs (getSin ino)).run t).Sat (fun _ u ↦ u = t) fun _ _ ↦ False := by
    rw [onSfs, run_zoom, getSin, get_bind_run]
    cases t.sfs.inodes ino with
    | some sin => rfl
    | none => trivial
  refine sat_bind (hget.imp (fun _ _ h ↦ h) fun _ _ h ↦ h.elim) fun sin u hu ↦ ?_
  obtain rfl := hu
  split
  · exact refers_between (m := fail .notDir) _ (fun v ↦ Shifts.refl v) ht
  · refine refers_between _ (fun v ↦ ?_) ht
    exact sat_bind (sfsLookupNode_sat ino path v) fun sub w hw ↦ hw

theorem refers_devLookup (d : ℕ) (path : List UInt8) : Refers (devLookup d path) := by
  intro s
  rw [devLookup]
  split
  · exact Shifts.refl s
  · exact sat_bind ((inodeRefInc_sat (.dev d) s).imp (fun _ _ h ↦ h) fun _ _ h ↦ h.elim)
      fun _ _ h ↦ h

theorem Refers.of_moves {β : Type} {m : VfsProg β} {f : β → VfsProg Node}
    (hm : Moves (Same Vfs.counts) m) (hf : ∀ b, Refers (f b)) : Refers (m >>= f) := by
  intro s
  refine sat_bind ((hm s).imp (fun _ _ h ↦ h) fun _ _ h ↦ .of_counts h) fun b t ht ↦ ?_
  have hsame : Shifts 0 0 s t := .of_counts ht
  exact (hf b t).imp (fun _ _ h ↦ hsame.of_same_trans h) fun _ _ h ↦ hsame.trans_of_same h

theorem moves_getSin_self (ino : ℕ) : Moves (Same SfsFs.counts) (getSin ino) := by
  refine Moves.get.bind fun s ↦ ?_
  split
  · exact Moves.pure _
  · exact Moves.halt

theorem refers_vopLookup (n : Node) (path : List UInt8) : Refers (vopLookup n path) := by
  refine .of_moves (moves_inodeCheck n) fun _ ↦ ?_
  cases n with
  | sfs ino =>
    exact .of_moves (moves_onSfs (moves_getSin_self ino)) fun _ ↦ .of_moves (Moves.assert _)
      fun _ ↦ refers_sfsLookup ino path
  | dev d => exact refers_devLookup d path

theorem refers_getNode (node : Option Node) : Refers (getNode node) := by
  intro s
  cases node with
  | none => exact Shifts.refl s
  | some n =>
    exact sat_bind ((inodeRefInc_sat n s).imp (fun _ _ h ↦ h) fun _ _ h ↦ h.elim) fun _ _ h ↦ h

theorem fsopGetRoot_sat (s : Vfs) : (fsopGetRoot.run s).Sat
    (fun n t ↦ Shifts (Pi.single n 1) 0 s t) fun _ _ ↦ False := by
  have hload := sfsLoadNode_sat sfsBlknRoot s
  rw [fsopGetRoot, run_bind, run_attempt]
  cases hrun : (sfsLoadNode sfsBlknRoot).run s with
  | ok a t =>
    rw [hrun] at hload
    exact hload
  | error e t => trivial
  | panic => trivial

theorem refers_vfsGetRoot (devname : List UInt8) : Refers (vfsGetRoot devname) := by
  refine .of_moves Moves.get fun s ↦ ?_
  cases s.vdevList.find? fun v ↦ v.devname = devname with
  | none => exact fun t ↦ Shifts.refl t
  | some vdev =>
    dsimp only
    split
    · exact fun t ↦ (fsopGetRoot_sat t).imp (fun _ _ h ↦ h) fun _ _ h ↦ h.elim
    · split
      · exact fun t ↦ Shifts.refl t
      · exact refers_getNode (some (.dev vdev.devnode))

theorem refers_curdirRoot : Refers curdirRoot := by
  intro s
  refine sat_bind (refers_getNode s.pwd s) fun node t ht ↦ ?_
  cases node with
  | dev d => trivial
  | sfs ino =>
    refine sat_bind ((fsopGetRoot_sat t).imp (fun _ _ h ↦ ht.trans h) fun _ _ h ↦ h.elim)
      fun root u hu ↦ ?_
    refine sat_bind ((inodeRefDec_sat (.sfs ino) u).imp (fun _ _ h ↦ hu.trans h)
      fun _ _ h ↦ h.elim) fun _ v hv ↦ ?_
    rwa [add_zero, add_zero, add_comm, neg_add_cancel_left] at hv

theorem refers_getDevice (path : List UInt8) : Refers (getDevice path) := by
  rw [getDevice]
  split
  · exact .of_moves Moves.get fun s ↦ refers_getNode s.pwd
  · exact refers_vfsGetRoot _
  · exact .of_moves Moves.get fun s ↦ refers_getNode s.bootfsNode
  · exact refers_curdirRoot

/-- A lookup refers to the inode that it returns, and has not changed a count when it fails. -/
theorem refers_vfsLookup (path : List UInt8) : Refers (vfsLookup path) := by
  intro s
  refine sat_bind (refers_getDevice path s) fun node t ht ↦ ?_
  split
  · exact refers_between node (refers_vopLookup node _) ht
  · exact ht

end Counts

end Ucore
