import Ucore.Sfs.FileRuns
import Ucore.Sfs.Listing
import Ucore.Vfs.Lookup

/-!
# Paths with several components

What `vfs_lookup` is to do with a path is given by `walk`: from the inode where the path starts, one
component after the other is looked up in the directory that the last one has led to. `sfs_lookup`
takes all that is left of the path as one name. This comes to the same when there is one component
at most, or when the walk does not get through either (`vfsLookup_exact_iff`).
-/

namespace Ucore

open Bytes Prog

/-! ## What a path names -/

namespace SfsFs

/-- The first used slot with that name. -/
def findEntry (s : SfsFs) (din : SfsDiskInode) (name : List UInt8) : Option ℕ :=
  (s.usedSlots din).find? fun i ↦ name = (s.dirent din i).str

end SfsFs

/-- The components of a path; slashes may be repeated. -/
def components (path : List UInt8) : List (List UInt8) :=
  (path.splitOnP (· == slash)).filter (· ≠ [])

namespace Vfs

/-- The inode with that name in a directory. -/
def child (s : Vfs) (n : Node) (name : List UInt8) : Option Node :=
  match n with
  | .sfs ino =>
    if (s.sfs.dinOf ino).type = sfsTypeDir then
      (s.sfs.findEntry (s.sfs.dinOf ino) name).map fun i ↦
        .sfs (s.sfs.dirent (s.sfs.dinOf ino) i).ino
    else none
  | .dev _ => none

/-- From an inode on, one component after the other. -/
def walk (s : Vfs) (n : Node) (names : List (List UInt8)) : Option Node := names.foldlM s.child n

/-- The inode where a path starts. -/
def startNode (s : Vfs) (path : List UInt8) : Option Node :=
  match (pathHead path).1 with
  | .current => s.pwd
  | .device name =>
    (s.vdevList.find? fun v ↦ v.devname = name).bind fun v ↦
      if v.mounted then some (.sfs sfsBlknRoot)
      else if v.mountable then none else some (.dev v.devnode)
  | .boot => s.bootfsNode
  | .root => s.pwd.map fun _ ↦ .sfs sfsBlknRoot

/-- The inode that a path names. -/
def named (s : Vfs) (path : List UInt8) : Option Node :=
  (s.startNode path).bind fun n ↦ s.walk n (components (pathHead path).2)

/-- `vfs_lookup` returns the inode that the path names, or an error when it names none. -/
structure LookupExact (s : Vfs) (path : List UInt8) (o : Outcome Errno Vfs Node) : Prop where
  found : ∀ n, s.named path = some n → ∃ t, o = .ok n t
  missing : s.named path = none → ∃ e t, o = .error e t

/-- A directory in memory that something refers to. -/
def Held (s : Vfs) (n : Node) : Prop :=
  ∃ ino sin, n = .sfs ino ∧ s.sfs.inodes ino = some sin ∧ sin.din.type = sfsTypeDir ∧
    0 < sin.refCount

/-- A tree of directories, with memory to spare. -/
structure Tree (s : Vfs) (live : Finset ℕ) : Prop where
  owned : s.sfs.Owned live
  grants : s.grants = []
  /-- The inodes of the tree are linked, and are directories or files. -/
  linked : ∀ k ∈ live, (s.sfs.dinOf k).nlinks ≠ 0
  kind : ∀ k ∈ live, (s.sfs.dinOf k).type = sfsTypeDir ∨ (s.sfs.dinOf k).type = sfsTypeFile
  /-- The entries of a directory lead to inodes of the tree, and their names have no slash. -/
  entries : ∀ k ∈ live, (s.sfs.dinOf k).type = sfsTypeDir → ∀ i ∈ s.sfs.usedSlots (s.sfs.dinOf k),
    (s.sfs.dirent (s.sfs.dinOf k) i).ino ∈ live ∧ slash ∉ (s.sfs.dirent (s.sfs.dinOf k) i).str
  /-- The current directory, the boot directory and the root are held. -/
  pwd : ∀ n, s.pwd = some n → s.Held n
  boot : ∀ n, s.bootfsNode = some n → s.Held n
  root : s.Held (.sfs sfsBlknRoot)
  /-- A device has the reference that it was made with. -/
  devices : ∀ d, 0 < (s.dev d).refCount
  /-- No inode has reached `MAX_INODE_COUNT`. -/
  room : ∀ n, (s.counts n).2 ≤ (s.counts n).1 ∧ (s.counts n).1 + 1 < maxInodeCount

/-- Two states with the same blocks. -/
structure SameDisk (s t : Vfs) : Prop where
  super : t.sfs.super = s.sfs.super
  dev : t.sfs.dev = s.sfs.dev
  freemap : t.sfs.freemap = s.sfs.freemap
  grants : t.grants = s.grants

/-- Two states with the same files. -/
structure SameView (s t : Vfs) : Prop extends SameDisk s t where
  din : ∀ k, (t.sfs.inodes k).map SfsInode.din = (s.sfs.inodes k).map SfsInode.din

section View

variable {s t u : Vfs} {k : ℕ} {sin : SfsInode} {n : Node}

theorem SameView.refl (s : Vfs) : SameView s s := ⟨⟨rfl, rfl, rfl, rfl⟩, fun _ ↦ rfl⟩

theorem SameDisk.trans (h : SameDisk s t) (h' : SameDisk t u) : SameDisk s u :=
  ⟨h'.super.trans h.super, h'.dev.trans h.dev, h'.freemap.trans h.freemap,
    h'.grants.trans h.grants⟩

theorem SameView.trans (h : SameView s t) (h' : SameView t u) : SameView s u :=
  ⟨h.toSameDisk.trans h'.toSameDisk, fun k ↦ (h'.din k).trans (h.din k)⟩

/-- An inode that is written back with the same contents. -/
theorem sameView_setInode {sin' : SfsInode} (hk : s.sfs.inodes k = some sin)
    (hdin : sin'.din = sin.din) : SameView s { s with sfs := s.sfs.setInode k sin' } := by
  refine ⟨⟨rfl, rfl, rfl, rfl⟩, fun j ↦ ?_⟩
  by_cases hj : j = k
  · rw [hj, hk]
    exact (congrArg (Option.map SfsInode.din) (s.sfs.setInode_inodes_self k sin')).trans
      (congrArg some hdin)
  · exact congrArg (Option.map SfsInode.din) (s.sfs.setInode_inodes_of_ne k sin' hj)

theorem sameView_setCounts (s : Vfs) (n : Node) (c : ℕ × ℕ) : SameView s (s.setCounts n c) := by
  cases n with
  | sfs ino =>
    cases hk : s.sfs.inodes ino with
    | none =>
      rw [setCounts, hk]
      exact .refl s
    | some sin =>
      have hset : s.setCounts (.sfs ino) c =
          { s with sfs := s.sfs.setInode ino { sin with refCount := c.1, openCount := c.2 } } := by
        rw [setCounts, hk]
      rw [hset]
      exact sameView_setInode hk rfl
  | dev d => exact ⟨⟨rfl, rfl, rfl, rfl⟩, fun _ ↦ rfl⟩

theorem SameView.cached (h : SameView s t) (hk : s.sfs.inodes k = some sin) :
    ∃ sin', t.sfs.inodes k = some sin' ∧ sin'.din = sin.din := by
  have hdin := h.din k
  rw [hk, Option.map_some] at hdin
  exact Option.map_eq_some_iff.mp hdin

theorem SameDisk.ok (h : SameDisk s t) (ho : s.sfs.Ok) : t.sfs.Ok where
  faults := by rw [h.dev, ho.faults]
  blocks_le := by rw [h.dev, h.super]; exact ho.blocks_le
  wf := by rw [h.freemap]; exact ho.wf
  blocks_le_nbits := by rw [h.freemap, h.super]; exact ho.blocks_le_nbits
  unused := by rw [h.freemap, h.super]; exact ho.unused

theorem SameDisk.bmap (h : SameDisk s t) (din : SfsDiskInode) (i : ℕ) :
    t.sfs.bmap din i = s.sfs.bmap din i :=
  SfsFs.bmap_congr rfl rfl fun _ ↦ by rw [h.dev]

theorem SameDisk.used (h : SameDisk s t) {b : ℕ} : t.sfs.Used b ↔ s.sfs.Used b := by
  rw [SfsFs.Used, SfsFs.Used, h.super, h.freemap]

theorem SameDisk.mapped (h : SameDisk s t) {din : SfsDiskInode} (hm : s.sfs.Mapped din) :
    t.sfs.Mapped din where
  used i hi := by rw [h.used, h.bmap]; exact hm.used i hi
  null i hi := by rw [h.bmap]; exact hm.null i hi
  indirect hne := h.used.mpr (hm.indirect hne)
  inj i hi j hj hij := by
    rw [h.bmap, h.bmap] at hij
    exact hm.inj i hi j hj hij
  ne_indirect i hi := by rw [h.bmap]; exact hm.ne_indirect i hi

theorem SameDisk.dirent (h : SameDisk s t) (din : SfsDiskInode) (i : ℕ) :
    t.sfs.dirent din i = s.sfs.dirent din i := by
  rw [SfsFs.dirent, SfsFs.dirent, h.bmap, h.dev]

theorem SameDisk.findEntry (h : SameDisk s t) (din : SfsDiskInode) (name : List UInt8) :
    t.sfs.findEntry din name = s.sfs.findEntry din name := by
  rw [SfsFs.findEntry, SfsFs.findEntry, SfsFs.usedSlots, SfsFs.usedSlots, SfsFs.usedFrom,
    SfsFs.usedFrom]
  simp only [h.dirent]

theorem SameView.dinOf (h : SameView s t) (k : ℕ) : t.sfs.dinOf k = s.sfs.dinOf k := by
  have hdin := h.din k
  cases hk : s.sfs.inodes k with
  | none =>
    rw [hk, Option.map_none, Option.map_eq_none_iff] at hdin
    rw [SfsFs.dinOf_of_none hk, SfsFs.dinOf_of_none hdin, h.dev]
  | some sin =>
    obtain ⟨sin', hk', hsame⟩ := h.cached hk
    rw [SfsFs.dinOf_of_cached hk, SfsFs.dinOf_of_cached hk', hsame]

end View

end Vfs

/-! ## The search in a directory -/

/-- The scan of the slots from `i` on. -/
theorem sfsDirentSearchLoop_find {s : SfsFs} {k : ℕ} {sin : SfsInode} (ho : s.Ok)
    (hk : s.inodes k = some sin) (hm : s.Mapped sin.din) (htype : sin.din.type = sfsTypeDir)
    (name : List UInt8) {i n : ℕ} (hn : i + n ≤ sin.din.blocks) :
    (sfsDirentSearchLoop k name i n).run s =
      match (s.usedFrom sin.din i n).find? fun i ↦ name = (s.dirent sin.din i).str with
      | some j => .ok (j, (s.dirent sin.din j).ino) s
      | none => .error .noent s := by
  induction n generalizing i with
  | zero => rfl
  | succ n ih =>
    have hi : i < sin.din.blocks := by omega
    have hread := sfsDirentReadNolock_eq ho hk htype hi (hm.used i hi) hm.indirect
    have hrest : i + 1 + n ≤ sin.din.blocks := by omega
    rw [sfsDirentSearchLoop, bind_of_ok hread, SfsFs.usedFrom_succ]
    change (if (s.dirent sin.din i).ino = 0 then _ else
      if name = (s.dirent sin.din i).str then _ else _ : Prog Errno SfsFs (ℕ × ℕ)).run s = _
    by_cases hino : (s.dirent sin.din i).ino = 0
    · rw [if_pos hino, if_neg (not_not.mpr hino), ih hrest]
    · rw [if_neg hino, if_pos hino]
      by_cases hname : name = (s.dirent sin.din i).str
      · rw [if_pos hname,
          List.find?_cons_of_pos (p := fun i ↦ decide (name = (s.dirent sin.din i).str))
            (decide_eq_true hname)]
        rfl
      · rw [if_neg hname,
          List.find?_cons_of_neg (p := fun i ↦ decide (name = (s.dirent sin.din i).str))
            (by rwa [decide_eq_true_eq]), ih hrest]

theorem sfsDirentSearchNolock_find {s : SfsFs} {k : ℕ} {sin : SfsInode} (ho : s.Ok)
    (hk : s.inodes k = some sin) (hm : s.Mapped sin.din) (htype : sin.din.type = sfsTypeDir)
    {name : List UInt8} (hlen : name.length ≤ sfsMaxFnameLen) :
    (sfsDirentSearchNolock k name).run s =
      match s.findEntry sin.din name with
      | some j => .ok (j, (s.dirent sin.din j).ino) s
      | none => .error .noent s := by
  rw [sfsDirentSearchNolock, assert_bind_run hlen, bind_of_ok (getSin_eq hk)]
  exact sfsDirentSearchLoop_find ho hk hm htype name (Nat.zero_add _).le

/-! ## Calls that return -/

section Calls

open Vfs

variable {α : Type} {s t : Vfs} {n : Node} {live : Finset ℕ}

theorem kmalloc_run (h : s.grants = []) : kmalloc.run s = .ok () s := by
  have htail : ({ s with grants := s.grants.tail } : Vfs) = s := by
    rw [h, List.tail_nil, ← h]
  rw [kmalloc, get_bind_run, modify_bind_run, htail, h, List.head?_nil, if_neg (by rintro ⟨⟩),
    run_pure]

theorem onSfs_of_ok {m : Prog Errno SfsFs α} {a : α} (h : m.run s.sfs = .ok a s.sfs) :
    (onSfs m).run s = .ok a s := zoom_of_ok h

theorem onSfs_of_error {m : Prog Errno SfsFs α} {e : Errno} (h : m.run s.sfs = .error e s.sfs) :
    (onSfs m).run s = .error e s := zoom_of_error h

/-- An inode with a count is in memory. -/
theorem inMemory_of_pos (h : 0 < (s.counts n).1) : s.InMemory n := by
  cases n with
  | sfs ino =>
    intro hnone
    rw [Vfs.counts, SfsFs.counts, hnone] at h
    exact lt_irrefl 0 h
  | dev d => trivial

theorem putCounts_run (f : ℕ × ℕ → ℕ × ℕ) (h : s.InMemory n) :
    (putCounts n f).run s = .ok () (s.setCounts n (f (s.counts n))) := by
  rw [putCounts, get_bind_run, assert_bind_run h, run_modify]

theorem inodeRefInc_ok (h : s.InMemory n) : ∃ t, (inodeRefInc n).run s = .ok () t ∧
    SameView s t ∧ Shifts (Pi.single n 1) 0 s t := by
  have hrun := putCounts_run (fun c ↦ (c.1 + 1, c.2)) h
  have hsat := inodeRefInc_sat n s
  rw [inodeRefInc, hrun] at hsat
  exact ⟨_, hrun, sameView_setCounts .., hsat⟩

/-- A reference that is not the last one is dropped. -/
theorem inodeRefDec_ok (h : 1 < (s.counts n).1) : ∃ t, (inodeRefDec n).run s = .ok () t ∧
    SameView s t ∧ Shifts (-Pi.single n 1) 0 s t := by
  have hpos : 0 < (s.counts n).1 := zero_lt_one.trans h
  have hrun : (inodeRefDec n).run s =
      .ok () (s.setCounts n ((s.counts n).1 - 1, (s.counts n).2)) := by
    rw [inodeRefDec, get_bind_run, assert_bind_run hpos,
      bind_of_ok (putCounts_run _ (inMemory_of_pos hpos)), if_neg (Nat.sub_pos_of_lt h).ne',
      run_pure]
  have hsat := inodeRefDec_sat n s
  rw [hrun] at hsat
  exact ⟨_, hrun, sameView_setCounts .., hsat⟩

theorem thenRefDec_of_ok {m : VfsProg α} {a : α} {u : Vfs} (hm : m.run s = .ok a t)
    (hdec : (inodeRefDec n).run t = .ok () u) : (thenRefDec m n).run s = .ok a u := by
  rw [thenRefDec, bind_of_ok (attempt_of_ok hm), bind_of_ok hdec, run_pure]

theorem thenRefDec_of_error {m : VfsProg α} {e : Errno} {u : Vfs} (hm : m.run s = .error e t)
    (hdec : (inodeRefDec n).run t = .ok () u) : (thenRefDec m n).run s = .error e u := by
  rw [thenRefDec, bind_of_ok (attempt_of_error hm), bind_of_ok hdec, run_fail]

theorem thenRefDec_of_panic {m : VfsProg α} (hm : m.run s = .panic) :
    (thenRefDec m n).run s = .panic := by
  rw [thenRefDec, bind_of_panic (attempt_of_panic hm)]

theorem onSfs_bind_eq {β : Type} {m : Prog Errno SfsFs α} {f : α → Prog Errno SfsFs β}
    {g : α → VfsProg β}
    (h : ∀ a t, m.run s.sfs = .ok a t →
      (g a).run { s with sfs := t } = (onSfs (f a)).run { s with sfs := t }) :
    (onSfs m >>= g).run s = (onSfs (m >>= f)).run s := by
  refine zoom_bind_eq ?_ ?_ h
  · exact fun _ _ ↦ rfl
  · exact fun _ _ _ ↦ rfl

/-- Where memory is granted, loading an inode is what the file system does. -/
theorem sfsLoadNode_granted {ino : ℕ} (hg : s.grants = []) :
    (sfsLoadNode ino).run s = (onSfs (sfsLoadInode ino)).run s := by
  cases hk : s.sfs.inodes ino with
  | some sin =>
    have hload : (onSfs (sfsLoadInode ino)).run s = (onSfs (putSin ino sin.revive)).run s := by
      rw [onSfs, onSfs, run_zoom, run_zoom, sfsLoadInode, get_bind_run, hk]
    rw [hload, sfsLoadNode, get_bind_run, hk]
  | none =>
    have hload : (onSfs (sfsLoadInode ino)).run s = (onSfs do
        let inuse ← sfsBlockInuse ino
        assert (inuse = true)
        let b ← sfsRbuf zero 0 SfsDiskInode.sizeof ino 0
        assert ((SfsDiskInode.ofBytes b).nlinks ≠ 0)
        let sin ← sfsCreateInode (SfsDiskInode.ofBytes b)
        modify fun s ↦ s.setLinks ino sin).run s := by
      rw [onSfs, onSfs, run_zoom, run_zoom, sfsLoadInode, get_bind_run, hk]
    rw [hload, sfsLoadNode, get_bind_run, hk, bind_of_ok (kmalloc_run hg)]
    refine onSfs_bind_eq fun inuse t₁ _ ↦ assert_zoom_bind_eq fun _ ↦ ?_
    refine onSfs_bind_eq fun b t₂ _ ↦ assert_zoom_bind_eq fun _ ↦ ?_
    rw [bind_of_ok (kmalloc_run (s := { s with sfs := t₂ }) hg)]
    exact onSfs_bind_eq fun sin t₃ _ ↦ rfl

/-- Likewise for the lookup of a name. -/
theorem sfsLookupNode_granted {ino : ℕ} (hg : s.grants = []) (name : List UInt8) :
    (sfsLookupNode ino name).run s = (onSfs (sfsLookupOnce ino name)).run s := by
  rw [sfsLookupNode, sfsLookupOnce]
  by_cases hlen : name.length ≤ sfsMaxFnameLen
  · rw [assert_bind_run hlen, bind_of_ok (kmalloc_run hg)]
    refine onSfs_bind_eq fun r t _ ↦ ?_
    rw [run_bind, sfsLoadNode_granted (s := { s with sfs := t }) hg, ← run_bind]
    exact onSfs_bind_eq fun _ _ _ ↦ rfl
  · have hsearch : (sfsDirentSearchNolock ino name).run s.sfs = .panic := by
      rw [sfsDirentSearchNolock, assert_bind_run_neg hlen]
    rw [assert_bind_run_neg hlen]
    exact (zoom_of_panic (bind_of_panic hsearch _)).symm

/-- Loading an inode of the tree that is not in memory. -/
theorem sfsLoadNode_fresh {ino : ℕ} (hg : s.grants = []) (ho : s.sfs.Ok) (hused : s.sfs.Used ino)
    (hlinks : (s.sfs.dinOf ino).nlinks ≠ 0)
    (hkind : (s.sfs.dinOf ino).type = sfsTypeDir ∨ (s.sfs.dinOf ino).type = sfsTypeFile)
    (hk : s.sfs.inodes ino = none) : (sfsLoadNode ino).run s =
      .ok () { s with sfs := s.sfs.setLinks ino ⟨s.sfs.dinOf ino, false, 1, 1, 0⟩ } := by
  have hload := sfsLoadInode_new ho hk hused
  rw [if_pos ⟨hlinks, hkind⟩] at hload
  rw [sfsLoadNode_granted hg]
  exact zoom_of_ok hload

/-- Loading an inode that is in memory. -/
theorem sfsLoadNode_cached {ino : ℕ} {sin : SfsInode} (hk : s.sfs.inodes ino = some sin) :
    (sfsLoadNode ino).run s = .ok () { s with sfs := s.sfs.setInode ino sin.revive } := by
  rw [sfsLoadNode, get_bind_run, hk]
  rfl

/-- Loading an inode of the tree. -/
theorem sfsLoadNode_ok {ino : ℕ} (hg : s.grants = []) (ho : s.sfs.Ok) (hused : s.sfs.Used ino)
    (hlinks : (s.sfs.dinOf ino).nlinks ≠ 0)
    (hkind : (s.sfs.dinOf ino).type = sfsTypeDir ∨ (s.sfs.dinOf ino).type = sfsTypeFile) :
    ∃ t, (sfsLoadNode ino).run s = .ok () t := by
  cases hk : s.sfs.inodes ino with
  | some sin => exact ⟨_, sfsLoadNode_cached hk⟩
  | none => exact ⟨_, sfsLoadNode_fresh hg ho hused hlinks hkind hk⟩

/-- The counts of one inode behind a shift of its references. -/
theorem counts_of_shift {i : ℕ} (h : Shifts (Pi.single n (i : ℤ)) 0 s t) :
    t.counts n = ((s.counts n).1 + i, (s.counts n).2) := by
  have hrefs := congrFun h.refs n
  have hopens := congrFun h.opens n
  rw [Vfs.refs, Pi.add_apply, Vfs.refs, Pi.single_eq_same] at hrefs
  rw [Vfs.opens, Pi.add_apply, Vfs.opens, Pi.zero_apply, add_zero] at hopens
  exact Prod.ext (by exact_mod_cast hrefs) (by exact_mod_cast hopens)

/-- The count before a reference was dropped. -/
theorem counts_of_dec (h : Shifts (-Pi.single n 1) 0 s t) :
    (s.counts n).1 = (t.counts n).1 + 1 := by
  have hrefs := congrFun h.refs n
  rw [Vfs.refs, Pi.add_apply, Vfs.refs, Pi.neg_apply, Pi.single_eq_same] at hrefs
  omega

/-- A reference to some inode does not lower a count. -/
theorem le_counts_of_inc {m : Node} (h : Shifts (Pi.single m 1) 0 s t) (n : Node) :
    (s.counts n).1 ≤ (t.counts n).1 := by
  have hrefs := congrFun h.refs n
  rw [Vfs.refs, Pi.add_apply, Vfs.refs] at hrefs
  by_cases hn : n = m
  · rw [hn, Pi.single_eq_same, ← hn] at hrefs
    omega
  · rw [Pi.single_eq_of_ne hn] at hrefs
    omega

/-- Two references are dropped, and there is one left. -/
theorem inodeRefDec_twice (h : 2 < (s.counts n).1) : ∃ t u, (inodeRefDec n).run s = .ok () t ∧
    (inodeRefDec n).run t = .ok () u := by
  obtain ⟨t, hdec, -, hshift⟩ := inodeRefDec_ok ((Nat.lt_succ_self 1).trans h)
  have hcount := counts_of_dec hshift
  obtain ⟨u, hdec', -⟩ := @inodeRefDec_ok t n (by omega)
  exact ⟨t, u, hdec, hdec'⟩

/-! ## A directory and a name -/

/-- `sfs_lookup_once`, as `sfs_lookup` calls it. -/
def lookupSub (k : ℕ) (name : List UInt8) : VfsProg Node := do
  let sub ← sfsLookupNode k name
  pure (.sfs sub)

/-- `vop_lookup` of a directory that is held comes to `sfs_lookup_once`, with two references more
than at first. -/
theorem vopLookup_enter (h : s.Tree live) {k : ℕ} {sin : SfsInode}
    (hk : s.sfs.inodes k = some sin) (htype : sin.din.type = sfsTypeDir) (href : 0 < sin.refCount)
    (hview : SameView s t) (hshift : Shifts (Pi.single (.sfs k) 1) 0 s t) {name : List UInt8}
    (hname : name ≠ [] ∧ name.head? ≠ some slash) :
    ∃ u sin', SameView s u ∧ u.sfs.inodes k = some sin' ∧ sin'.din = sin.din ∧
      2 < (u.counts (.sfs k)).1 ∧ (vopLookup (.sfs k) name).run t =
        (thenRefDec (lookupSub k name) (.sfs k)).run u := by
  have hcount : s.counts (.sfs k) = (sin.refCount, sin.openCount) := SfsFs.counts_of_cached hk
  have hcount' := counts_of_shift (i := 1) hshift
  rw [hcount] at hcount'
  have hroom := h.room (.sfs k)
  rw [hcount] at hroom
  have hcheck : (inodeCheck (.sfs k)).run t = .ok () t := by
    rw [inodeCheck, get_bind_run, run_assert]
    rw [hcount']
    exact ⟨hroom.1.trans (Nat.le_succ _), hroom.2, (hroom.1.trans (Nat.le_succ _)).trans_lt hroom.2⟩
  obtain ⟨sin₁, hk₁, hdin₁⟩ := hview.cached hk
  have hmem : t.InMemory (.sfs k) := by
    change t.sfs.inodes k ≠ none
    rw [hk₁]
    rintro ⟨⟩
  obtain ⟨u, hinc, hview₂, hshift₂⟩ := inodeRefInc_ok hmem
  have hview' := hview.trans hview₂
  obtain ⟨sin₂, hk₂, hdin₂⟩ := hview'.cached hk
  have htype₁ : sin₁.din.type = sfsTypeDir := by rw [hdin₁, htype]
  have htype₂ : ¬sin₂.din.type ≠ sfsTypeDir := by
    rw [not_not, hdin₂, htype]
  have hcount₂ := counts_of_shift (i := 1) hshift₂
  rw [hcount'] at hcount₂
  refine ⟨u, sin₂, hview', hk₂, hdin₂, ?_, ?_⟩
  · rw [hcount₂]
    dsimp only
    omega
  · rw [vopLookup, bind_of_ok hcheck, bind_of_ok (onSfs_of_ok (getSin_eq hk₁)),
      assert_bind_run htype₁, sfsLookup, assert_bind_run hname, bind_of_ok hinc,
      bind_of_ok (onSfs_of_ok (getSin_eq hk₂)), if_neg htype₂]
    rfl

/-- `vop_lookup` of a directory that is held, with the reference of the caller dropped after it. -/
theorem vopLookup_dir (h : s.Tree live) {k : ℕ} {sin : SfsInode} (hk : s.sfs.inodes k = some sin)
    (htype : sin.din.type = sfsTypeDir) (href : 0 < sin.refCount) (hview : SameView s t)
    (hshift : Shifts (Pi.single (.sfs k) 1) 0 s t) {name : List UInt8}
    (hname : name ≠ [] ∧ name.head? ≠ some slash) (hlen : name.length ≤ sfsMaxFnameLen) :
    match s.sfs.findEntry sin.din name with
    | some i => ∃ u, (thenRefDec (vopLookup (.sfs k) name) (.sfs k)).run t =
        .ok (.sfs (s.sfs.dirent sin.din i).ino) u
    | none => ∃ u, (thenRefDec (vopLookup (.sfs k) name) (.sfs k)).run t = .error .noent u := by
  obtain ⟨u, sin', hview', hk', hdin', htwo, hup⟩ :=
    vopLookup_enter h hk htype href hview hshift hname
  have hgrants : u.grants = [] := hview'.grants.trans h.grants
  have hlive := h.owned.cached k sin hk
  have hsearch := sfsDirentSearchNolock_find (hview'.ok h.owned.ok) hk'
    (hdin' ▸ hview'.mapped (h.owned.mapped_of_cached hk)) (hdin' ▸ htype) hlen
  rw [hdin', hview'.findEntry] at hsearch
  cases hfind : s.sfs.findEntry sin.din name with
  | none =>
    rw [hfind] at hsearch
    obtain ⟨v, w, hdec, hdec'⟩ := inodeRefDec_twice htwo
    have hfail : (sfsLookupNode k name).run u = .error .noent u := by
      rw [sfsLookupNode, assert_bind_run hlen, bind_of_ok (kmalloc_run hgrants),
        bind_of_error (onSfs_of_error hsearch)]
    refine ⟨w, thenRefDec_of_error (hup.trans ?_) hdec'⟩
    exact thenRefDec_of_error (bind_of_error hfail _) hdec
  | some i =>
    rw [hfind] at hsearch
    dsimp only at hsearch
    rw [hview'.dirent] at hsearch
    have hmem : i ∈ s.sfs.usedSlots (s.sfs.dinOf k) := by
      rw [SfsFs.dinOf_of_cached hk]
      exact List.mem_of_find?_eq_some hfind
    have hino : (s.sfs.dirent sin.din i).ino ∈ live := by
      have hentry := (h.entries k hlive (by rwa [SfsFs.dinOf_of_cached hk]) i hmem).1
      rwa [SfsFs.dinOf_of_cached hk] at hentry
    obtain ⟨v, hload⟩ := sfsLoadNode_ok hgrants (hview'.ok h.owned.ok)
      (hview'.used.mpr (h.owned.used_inode hino)) (by rw [hview'.dinOf]; exact h.linked _ hino)
      (by rw [hview'.dinOf]; exact h.kind _ hino)
    have hloaded := sfsLoadNode_sat (s.sfs.dirent sin.din i).ino u
    rw [hload] at hloaded
    obtain ⟨w, x, hdec, hdec'⟩ := inodeRefDec_twice (htwo.trans_le (le_counts_of_inc hloaded _))
    have hok : (sfsLookupNode k name).run u = .ok (s.sfs.dirent sin.din i).ino v := by
      rw [sfsLookupNode, assert_bind_run hlen, bind_of_ok (kmalloc_run hgrants),
        bind_of_ok (onSfs_of_ok hsearch), bind_of_ok hload, run_pure]
    refine ⟨x, thenRefDec_of_ok (hup.trans ?_) hdec'⟩
    exact thenRefDec_of_ok (bind_of_ok hok _) hdec

/-- A name that is too long stops the machine. -/
theorem vopLookup_long (h : s.Tree live) {k : ℕ} {sin : SfsInode} (hk : s.sfs.inodes k = some sin)
    (htype : sin.din.type = sfsTypeDir) (href : 0 < sin.refCount) (hview : SameView s t)
    (hshift : Shifts (Pi.single (.sfs k) 1) 0 s t) {name : List UInt8}
    (hname : name ≠ [] ∧ name.head? ≠ some slash) (hlen : ¬name.length ≤ sfsMaxFnameLen) :
    (thenRefDec (vopLookup (.sfs k) name) (.sfs k)).run t = .panic := by
  obtain ⟨u, sin', -, -, -, -, hup⟩ := vopLookup_enter h hk htype href hview hshift hname
  have hpanic : (sfsLookupNode k name).run u = .panic := by
    rw [sfsLookupNode, assert_bind_run_neg hlen]
  exact thenRefDec_of_panic (hup.trans (thenRefDec_of_panic (bind_of_panic hpanic _)))

/-- The inode of a device has no names below it. -/
theorem vopLookup_dev (h : s.Tree live) {d : ℕ} (hshift : Shifts (Pi.single (.dev d) 1) 0 s t)
    {name : List UInt8} (hname : name ≠ []) :
    ∃ e u, (thenRefDec (vopLookup (.dev d) name) (.dev d)).run t = .error e u := by
  have hcount := counts_of_shift (i := 1) hshift
  have hroom := h.room (.dev d)
  have hpos : 0 < (s.counts (.dev d)).1 := h.devices d
  have hcheck : (inodeCheck (.dev d)).run t = .ok () t := by
    rw [inodeCheck, get_bind_run, run_assert]
    rw [hcount]
    exact ⟨hroom.1.trans (Nat.le_succ _), hroom.2, (hroom.1.trans (Nat.le_succ _)).trans_lt hroom.2⟩
  have hup : (vopLookup (.dev d) name).run t = .error .noent t := by
    rw [vopLookup, bind_of_ok hcheck, devLookup, if_pos hname, run_fail]
  obtain ⟨u, hdec, -⟩ := @inodeRefDec_ok t (.dev d) (by rw [hcount]; exact Nat.succ_lt_succ hpos)
  exact ⟨.noent, u, thenRefDec_of_error hup hdec⟩

/-! ## Where a path starts -/

theorem Vfs.Held.inMemory (h : s.Held n) : s.InMemory n := by
  obtain ⟨ino, sin, rfl, hk, -⟩ := h
  change s.sfs.inodes ino ≠ none
  rw [hk]
  rintro ⟨⟩

theorem Vfs.Held.pos (h : s.Held n) : 0 < (s.counts n).1 := by
  obtain ⟨ino, sin, rfl, hk, -, hpos⟩ := h
  change 0 < (s.sfs.counts ino).1
  rwa [SfsFs.counts_of_cached hk]

theorem getNode_some (h : s.InMemory n) : ∃ t, (getNode (some n)).run s = .ok n t ∧
    SameView s t := by
  obtain ⟨t, hinc, hview, -⟩ := inodeRefInc_ok h
  exact ⟨t, bind_of_ok hinc _, hview⟩

theorem fsopGetRoot_ok {sin : SfsInode} (hk : s.sfs.inodes sfsBlknRoot = some sin) :
    ∃ t, fsopGetRoot.run s = .ok (.sfs sfsBlknRoot) t ∧ SameView s t := by
  refine ⟨{ s with sfs := s.sfs.setInode sfsBlknRoot sin.revive }, ?_, sameView_setInode hk rfl⟩
  rw [fsopGetRoot, bind_of_ok (attempt_of_ok (sfsLoadNode_cached hk)), run_pure]

/-- `get_device` finds the inode where the path starts. -/
theorem getDevice_eq (h : s.Tree live) (path : List UInt8) :
    match s.startNode path with
    | some n => ∃ t, (getDevice path).run s = .ok n t ∧ SameView s t
    | none => ∃ e, (getDevice path).run s = .error e s := by
  rw [startNode, getDevice]
  obtain ⟨ino, sin, hino, hk, htype, href⟩ := h.root
  obtain rfl := Node.sfs.inj hino
  cases (pathHead path).1 with
  | current =>
    dsimp only
    rw [vfsGetCurdir, get_bind_run]
    cases hpwd : s.pwd with
    | none => exact ⟨.noent, rfl⟩
    | some n => exact getNode_some (h.pwd n hpwd).inMemory
  | boot =>
    dsimp only
    rw [vfsGetBootfs, get_bind_run]
    cases hboot : s.bootfsNode with
    | none => exact ⟨.noent, rfl⟩
    | some n => exact getNode_some (h.boot n hboot).inMemory
  | device name =>
    dsimp only
    rw [vfsGetRoot, get_bind_run]
    cases s.vdevList.find? fun v ↦ v.devname = name with
    | none => exact ⟨.noDev, rfl⟩
    | some v =>
      dsimp only [Option.bind_some]
      by_cases hmounted : v.mounted = true
      · rw [if_pos hmounted, if_pos hmounted]
        exact fsopGetRoot_ok hk
      · rw [if_neg hmounted, if_neg hmounted]
        by_cases hmountable : v.mountable = true
        · rw [if_pos hmountable, if_pos hmountable]
          exact ⟨.naDev, rfl⟩
        · rw [if_neg hmountable, if_neg hmountable]
          exact getNode_some (n := .dev v.devnode) trivial
  | root =>
    dsimp only
    rw [curdirRoot]
    cases hpwd : s.pwd with
    | none =>
      refine ⟨.noent, bind_of_error ?_ _⟩
      rw [vfsGetCurdir, get_bind_run, hpwd]
      rfl
    | some n =>
      have hheld := h.pwd n hpwd
      obtain ⟨t, hnode, hview⟩ := getNode_some hheld.inMemory
      have hcur : vfsGetCurdir.run s = .ok n t := by
        rw [vfsGetCurdir, get_bind_run, hpwd]
        exact hnode
      have hshift := refers_getNode (some n) s
      rw [hnode] at hshift
      obtain ⟨sin', hk', -⟩ := hview.cached hk
      obtain ⟨u, hroot, hview'⟩ := fsopGetRoot_ok hk'
      have hshift' := fsopGetRoot_sat t
      rw [hroot] at hshift'
      -- the working directory has a reference of its own, so the one dropped here is not the last
      have htwo : 1 < (u.counts n).1 := by
        have hcount := counts_of_shift (i := 1) hshift
        have hle := le_counts_of_inc hshift' n
        have hpos := hheld.pos
        rw [hcount] at hle
        dsimp only at hle
        omega
      obtain ⟨v, hdec, hview'', -⟩ := inodeRefDec_ok htwo
      obtain ⟨ino, sin, rfl, -⟩ := hheld
      refine ⟨v, ?_, (hview.trans hview').trans hview''⟩
      rw [bind_of_ok hcur]
      dsimp only
      rw [bind_of_ok hroot, bind_of_ok hdec, run_pure]

/-! ## Components -/

/-- What is left of a path does not begin with a slash. -/
theorem head_subpath_ne (path : List UInt8) : (pathHead path).2.head? ≠ some slash := by
  have hdrop : ∀ l : List UInt8, (l.dropWhile (· = slash)).head? ≠ some slash := by
    intro l hl
    have hhead := List.head?_dropWhile_not (fun c : UInt8 ↦ decide (c = slash)) l
    rw [hl] at hhead
    exact absurd hhead (by decide)
  rw [pathHead]
  cases hrest : path.dropWhile fun c ↦ c ≠ colon ∧ c ≠ slash with
  | nil =>
    -- a path that begins with a slash has something left
    intro hhead
    cases path with
    | nil => cases hhead
    | cons c path =>
      obtain rfl := Option.some.inj hhead
      rw [List.dropWhile_cons_of_neg (by decide)] at hrest
      cases hrest
  | cons c rest =>
    dsimp only
    split
    · split
      · exact hdrop rest
      · exact hdrop rest
    · split
      · exact hdrop rest
      · rename_i hname
        intro hhead
        cases path with
        | nil => cases hhead
        | cons c' path =>
          obtain rfl := Option.some.inj hhead
          exact hname (List.takeWhile_cons_of_neg (by decide))

theorem components_of_not_mem {path : List UInt8} (hne : path ≠ []) (h : slash ∉ path) :
    components path = [path] := by
  have hsplit : path.splitOnP (· == slash) = [path] := by
    refine List.splitOnP_eq_singleton fun c hc ↦ ?_
    rw [beq_eq_false_iff_ne]
    rintro rfl
    exact h hc
  rw [components, hsplit,
    List.filter_cons_of_pos (p := fun l : List UInt8 ↦ decide (l ≠ [])) (decide_eq_true hne),
    List.filter_nil]

theorem components_ne_nil {path : List UInt8} (hne : path ≠ []) (h : path.head? ≠ some slash) :
    components path ≠ [] := by
  cases path with
  | nil => exact absurd rfl hne
  | cons c path =>
    have hc : (c == slash) = false := by
      rw [beq_eq_false_iff_ne]
      rintro rfl
      exact h rfl
    obtain ⟨piece, pieces, hsplit⟩ := List.exists_cons_of_ne_nil
      (List.splitOnP_ne_nil (· == slash) path)
    rw [components, List.splitOnP_cons_eq_if_modifyHead,
      if_neg (by rw [hc]; exact Bool.false_ne_true), hsplit, List.modifyHead_cons,
      List.filter_cons_of_pos (p := fun l : List UInt8 ↦ decide (l ≠ []))
        (decide_eq_true (List.cons_ne_nil c piece))]
    exact List.cons_ne_nil _ _

/-! ## The lookup -/

/-- The first component of a path that is one name. -/
theorem walk_singleton (s : Vfs) (n : Node) (name : List UInt8) :
    s.walk n [name] = s.child n name := by
  rw [walk, List.foldlM_cons]
  simp only [List.foldlM_nil, bind_pure]

/-- An entry's name has no slash. -/
theorem findEntry_of_mem (h : s.Tree live) {k : ℕ} (hk : k ∈ live)
    (htype : (s.sfs.dinOf k).type = sfsTypeDir) {name : List UInt8} (hmem : slash ∈ name) :
    s.sfs.findEntry (s.sfs.dinOf k) name = none := by
  refine List.find?_eq_none.mpr fun i hi hname ↦ ?_
  exact (h.entries k hk htype i hi).2 (of_decide_eq_true hname ▸ hmem)

/-- No name can be looked up in a device. -/
theorem walk_dev (s : Vfs) (d : ℕ) {names : List (List UInt8)} (h : names ≠ []) :
    s.walk (.dev d) names = none := by
  cases names with
  | nil => exact absurd rfl h
  | cons name names =>
    rw [walk, List.foldlM_cons]
    rfl

/-- A path that starts at an inode of the file system starts at a directory that is held. -/
theorem held_of_startNode (h : s.Tree live) {path : List UInt8} {k : ℕ}
    (hstart : s.startNode path = some (.sfs k)) : s.Held (.sfs k) := by
  rw [startNode] at hstart
  cases hhead : (pathHead path).1 with
  | current =>
    rw [hhead] at hstart
    exact h.pwd _ hstart
  | boot =>
    rw [hhead] at hstart
    exact h.boot _ hstart
  | root =>
    rw [hhead] at hstart
    obtain ⟨n, -, hn⟩ := Option.map_eq_some_iff.mp hstart
    exact hn ▸ h.root
  | device name =>
    rw [hhead] at hstart
    obtain ⟨v, -, hv⟩ := Option.bind_eq_some_iff.mp hstart
    by_cases hmounted : v.mounted = true
    · rw [if_pos hmounted] at hv
      exact Option.some.inj hv ▸ h.root
    · rw [if_neg hmounted] at hv
      by_cases hmountable : v.mountable = true
      · rw [if_pos hmountable] at hv
        cases hv
      · rw [if_neg hmountable] at hv
        cases hv

/-- A run that ends with an error is the right one for a path that names nothing. -/
theorem lookupExact_of_error {path : List UInt8} {e : Errno} {t : Vfs} :
    LookupExact s path (.error e t) ↔ s.named path = none := by
  constructor
  · intro hexact
    cases hnamed : s.named path with
    | none => rfl
    | some n =>
      obtain ⟨u, hu⟩ := hexact.found n hnamed
      cases hu
  · intro hnamed
    refine ⟨fun n hn ↦ ?_, fun _ ↦ ⟨e, t, rfl⟩⟩
    rw [hnamed] at hn
    cases hn

theorem lookupExact_of_ok {path : List UInt8} {n : Node} {t : Vfs} (h : s.named path = some n) :
    LookupExact s path (.ok n t) := by
  refine ⟨fun m hm ↦ ⟨t, ?_⟩, fun hnone ↦ ?_⟩
  · rw [h] at hm
    rw [Option.some.inj hm]
  · rw [h] at hnone
    cases hnone

/-- The path names an inode or it does not, and the kernel may stop in neither case. -/
theorem not_lookupExact_panic {path : List UInt8} : ¬LookupExact s path .panic := by
  intro hexact
  cases hnone : s.named path with
  | none =>
    obtain ⟨e, u, hu⟩ := hexact.missing hnone
    cases hu
  | some m =>
    obtain ⟨u, hu⟩ := hexact.found m hnone
    cases hu

/-- `vfs_lookup` returns the inode that a path names, or an error when it names none, exactly when
nothing is left of the path behind its start, or the path does not start at a directory, or what is
left is no longer than a name can be, and has one component only or names nothing. -/
theorem vfsLookup_exact_iff (h : s.Tree live) (path : List UInt8) :
    LookupExact s path ((vfsLookup path).run s) ↔
      (pathHead path).2 = [] ∨ (∀ k, s.startNode path ≠ some (.sfs k)) ∨
        ((pathHead path).2.length ≤ sfsMaxFnameLen ∧
          (slash ∉ (pathHead path).2 ∨ s.named path = none)) := by
  have hdev := getDevice_eq h path
  have hrefers := refers_getDevice path s
  rw [vfsLookup]
  cases hstart : s.startNode path with
  | none =>
    rw [hstart] at hdev
    obtain ⟨e, hrun⟩ := hdev
    have hnamed : s.named path = none := by rw [named, hstart, Option.bind_none]
    rw [bind_of_error hrun, lookupExact_of_error]
    exact ⟨fun _ ↦ .inr (.inl fun k hk ↦ by cases hk), fun _ ↦ hnamed⟩
  | some n =>
    rw [hstart] at hdev
    obtain ⟨t, hrun, hview⟩ := hdev
    rw [hrun] at hrefers
    have hnamed : s.named path = s.walk n (components (pathHead path).2) := by
      rw [named, hstart, Option.bind_some]
    rw [bind_of_ok hrun]
    by_cases hsub : (pathHead path).2 = []
    · rw [if_neg (not_not.mpr hsub), run_pure]
      refine ⟨fun _ ↦ .inl hsub, fun _ ↦ lookupExact_of_ok ?_⟩
      rw [hnamed, hsub]
      rfl
    rw [if_pos hsub]
    have hname : (pathHead path).2 ≠ [] ∧ (pathHead path).2.head? ≠ some slash :=
      ⟨hsub, head_subpath_ne path⟩
    cases n with
    | dev d =>
      obtain ⟨e, u, hup⟩ := vopLookup_dev h hrefers hsub
      rw [hup, lookupExact_of_error, hnamed, walk_dev s d (components_ne_nil hname.1 hname.2)]
      exact ⟨fun _ ↦ .inr (.inl fun k hk ↦ by cases hk), fun _ ↦ rfl⟩
    | sfs k =>
      obtain ⟨ino, sin, hino, hk, htype, href⟩ := held_of_startNode h hstart
      obtain rfl := Node.sfs.inj hino
      have hlive := h.owned.cached k sin hk
      have hdin : s.sfs.dinOf k = sin.din := SfsFs.dinOf_of_cached hk
      by_cases hlen : (pathHead path).2.length ≤ sfsMaxFnameLen
      swap
      · -- the assertion on the length of a name
        rw [vopLookup_long h hk htype href hview hrefers hname hlen]
        refine iff_of_false not_lookupExact_panic ?_
        rintro (hempty | hno | ⟨hle, -⟩)
        · exact absurd hempty hsub
        · exact absurd rfl (hno k)
        · exact absurd hle hlen
      have hlookup := vopLookup_dir h hk htype href hview hrefers hname hlen
      -- no entry has a slash in its name, so such a path fails as a whole
      by_cases hslash : slash ∈ (pathHead path).2
      · have hnone : s.sfs.findEntry sin.din (pathHead path).2 = none :=
          hdin ▸ findEntry_of_mem h hlive (hdin ▸ htype) hslash
        rw [hnone] at hlookup
        obtain ⟨u, hup⟩ := hlookup
        rw [hup, lookupExact_of_error]
        constructor
        · exact fun hn ↦ .inr (.inr ⟨hlen, .inr hn⟩)
        · rintro (hempty | hno | ⟨-, hno | hn⟩)
          · exact absurd hempty hsub
          · exact absurd rfl (hno k)
          · exact absurd hslash hno
          · exact hn
      · refine ⟨fun _ ↦ .inr (.inr ⟨hlen, .inl hslash⟩), fun _ ↦ ?_⟩
        rw [components_of_not_mem hsub hslash, walk_singleton, child, hdin, if_pos htype] at hnamed
        cases hfind : s.sfs.findEntry sin.din (pathHead path).2 with
        | none =>
          rw [hfind] at hlookup hnamed
          obtain ⟨u, hup⟩ := hlookup
          rw [hup, lookupExact_of_error, hnamed, Option.map_none]
        | some i =>
          rw [hfind] at hlookup hnamed
          obtain ⟨u, hup⟩ := hlookup
          rw [hup]
          exact lookupExact_of_ok hnamed

/-- A directory with an entry for itself, and an empty slot. -/
def dotDin : SfsDiskInode := .ofDirect 512 sfsTypeDir 1 [4, 5]

/-- A file system with that directory. -/
def dotFs : SfsFs :=
  { sampleFs with
    dev := { sampleFs.dev with
      blk := fun b ↦ if b = 4 then ofList [3, 0, 0, 0, 46] else if b = 5 then zero
        else sampleFs.dev.blk b }
    inodes := fun k ↦ if k = 1 then some ⟨sampleRoot, false, 1, 1, 0⟩
      else if k = 3 then some ⟨dotDin, false, 1, 1, 0⟩
      else if k = 6 then some ⟨sampleOther, false, 1, 1, 0⟩ else none }

/-- A machine with it, whose current directory is that directory. -/
def dotVfs : Vfs where
  sfs := dotFs
  dev _ := ⟨1, 0, fun _ ↦ none, none⟩
  vdevList := []
  pwd := some (.sfs 3)
  bootfsNode := some (.sfs 1)
  grants := []

theorem dotFs_cached {k : ℕ} {sin : SfsInode} (hk : dotFs.inodes k = some sin) :
    (k = 1 ∧ sin = ⟨sampleRoot, false, 1, 1, 0⟩) ∨ (k = 3 ∧ sin = ⟨dotDin, false, 1, 1, 0⟩) ∨
      (k = 6 ∧ sin = ⟨sampleOther, false, 1, 1, 0⟩) := by
  by_cases h1 : k = 1
  · subst h1
    exact .inl ⟨rfl, (Option.some.inj hk).symm⟩
  by_cases h3 : k = 3
  · subst h3
    exact .inr (.inl ⟨rfl, (Option.some.inj hk).symm⟩)
  by_cases h6 : k = 6
  · subst h6
    exact .inr (.inr ⟨rfl, (Option.some.inj hk).symm⟩)
  · have hnone : dotFs.inodes k = none := ((if_neg h1).trans (if_neg h3)).trans (if_neg h6)
    rw [hnone] at hk
    cases hk

theorem dotFs_owned : dotFs.Owned sampleLive := by
  have hok : dotFs.Ok :=
    { faults := sampleFs_ok.faults
      blocks_le := sampleFs_ok.blocks_le
      wf := sampleFs_ok.wf
      blocks_le_nbits := sampleFs_ok.blocks_le_nbits
      unused := sampleFs_ok.unused }
  refine sampleFs_owned.of_sameMaps hok rfl (fun _ ↦ Iff.rfl) (fun j hj ↦ ?_) fun j sin hj ↦ ?_
  · have hj' : j = 1 ∨ j = 3 ∨ j = 6 := by simpa [sampleLive] using hj
    rcases hj' with rfl | rfl | rfl
    · refine ⟨?_, ?_, fun i ↦ ?_, ?_⟩ <;> rw [sampleFs_dinOf_root]
      · rfl
      · rfl
      · exact SfsFs.bmap_congr rfl rfl fun hne ↦ absurd rfl hne
      · rfl
    · exact ⟨rfl, rfl, fun i ↦ SfsFs.bmap_congr rfl rfl fun hne ↦ absurd rfl hne, rfl⟩
    · exact ⟨rfl, rfl, fun i ↦ SfsFs.bmap_congr rfl rfl fun hne ↦ absurd rfl hne, rfl⟩
  · rcases dotFs_cached hj with ⟨rfl, -⟩ | ⟨rfl, -⟩ | ⟨rfl, -⟩
    · decide
    · decide
    · decide

theorem dotVfs_tree : dotVfs.Tree sampleLive where
  owned := dotFs_owned
  grants := rfl
  linked k hk := by
    have hk' : k = 1 ∨ k = 3 ∨ k = 6 := by simpa [sampleLive] using hk
    rcases hk' with rfl | rfl | rfl
    · decide
    · decide
    · decide
  kind k hk := by
    have hk' : k = 1 ∨ k = 3 ∨ k = 6 := by simpa [sampleLive] using hk
    rcases hk' with rfl | rfl | rfl
    · exact .inl rfl
    · exact .inl rfl
    · exact .inr rfl
  entries k hk htype i hi := by
    have hk' : k = 1 ∨ k = 3 ∨ k = 6 := by simpa [sampleLive] using hk
    rcases hk' with rfl | rfl | rfl
    · exact absurd hi List.not_mem_nil
    · have hslots : dotFs.usedSlots dotDin = [0] := by decide +kernel
      change i ∈ dotFs.usedSlots dotDin at hi
      rw [hslots] at hi
      obtain rfl := List.mem_singleton.mp hi
      have hentry : (dotFs.dirent dotDin 0).ino ∈ sampleLive ∧
          slash ∉ (dotFs.dirent dotDin 0).str := by decide +kernel
      exact hentry
    · exact absurd htype (by decide)
  pwd n hn := by
    obtain rfl := Option.some.inj hn
    exact ⟨3, _, rfl, rfl, rfl, Nat.one_pos⟩
  boot n hn := by
    obtain rfl := Option.some.inj hn
    exact ⟨1, _, rfl, rfl, rfl, Nat.one_pos⟩
  root := ⟨1, _, rfl, rfl, rfl, Nat.one_pos⟩
  devices _ := Nat.one_pos
  room n := by
    cases n with
    | dev d => exact ⟨Nat.zero_le _, (by decide : 2 < maxInodeCount)⟩
    | sfs ino =>
      change (dotFs.counts ino).2 ≤ (dotFs.counts ino).1 ∧ (dotFs.counts ino).1 + 1 < maxInodeCount
      cases hk : dotFs.inodes ino with
      | none =>
        rw [SfsFs.counts, hk]
        decide
      | some sin =>
        rw [SfsFs.counts_of_cached hk]
        rcases dotFs_cached hk with ⟨-, rfl⟩ | ⟨-, rfl⟩ | ⟨-, rfl⟩
        · decide
        · decide
        · decide

/-- `.` is looked up as it should be. -/
theorem vfsLookup_exact_iff_sample :
    LookupExact dotVfs [46] ((vfsLookup [46]).run dotVfs) :=
  (vfsLookup_exact_iff dotVfs_tree [46]).mpr (.inr (.inr ⟨by decide, .inl (by decide)⟩))

/-- The directory of the sample has the entry `.`, and no entry `./.`. -/
theorem dotFs_findEntry : dotFs.findEntry dotDin [46] = some 0 ∧
    dotFs.findEntry dotDin [46, slash, 46] = none := by
  have hslots : dotFs.usedSlots dotDin = [0] := by decide +kernel
  have hname : (dotFs.dirent dotDin 0).str = [46] := by decide +kernel
  rw [SfsFs.findEntry, SfsFs.findEntry, hslots]
  constructor
  · rw [List.find?_cons_of_pos (by rw [hname]; decide)]
  · rw [List.find?_cons_of_neg (by rw [hname]; decide), List.find?_nil]

theorem dotVfs_named : dotVfs.named [46, slash, 46] = some (.sfs 3) := by
  have hino : (dotFs.dirent dotDin 0).ino = 3 := by decide +kernel
  have hchild : dotVfs.child (.sfs 3) [46] = some (.sfs 3) := by
    change (if dotDin.type = sfsTypeDir then (dotFs.findEntry dotDin [46]).map fun i ↦
      Node.sfs (dotFs.dirent dotDin i).ino else none) = some (.sfs 3)
    rw [if_pos (by decide), dotFs_findEntry.1, Option.map_some, hino]
  have hstart : dotVfs.startNode [46, slash, 46] = some (.sfs 3) := by decide
  have hnames : components (pathHead [46, slash, 46]).2 = [[46], [46]] := by decide
  rw [named, hstart, Option.bind_some, hnames, walk, List.foldlM_cons, hchild]
  exact (walk_singleton dotVfs (.sfs 3) [46]).trans hchild

/-- But `./.`, which names the same directory, is not found. -/
theorem vfsLookup_not_exact_sample : dotVfs.Tree sampleLive ∧
    dotVfs.named [46, slash, 46] = some (.sfs 3) ∧
    ∃ t, (vfsLookup [46, slash, 46]).run dotVfs = .error .noent t ∧
      ¬LookupExact dotVfs [46, slash, 46] ((vfsLookup [46, slash, 46]).run dotVfs) := by
  have hstart : dotVfs.startNode [46, slash, 46] = some (.sfs 3) := by decide
  have hhead : (pathHead [46, slash, 46]).2 = [46, slash, 46] := by decide
  have hdev := getDevice_eq dotVfs_tree [46, slash, 46]
  have hrefers := refers_getDevice [46, slash, 46] dotVfs
  rw [hstart] at hdev
  obtain ⟨t, hrun, hview⟩ := hdev
  rw [hrun] at hrefers
  have hk : dotVfs.sfs.inodes 3 = some ⟨dotDin, false, 1, 1, 0⟩ := rfl
  have hname : ([46, slash, 46] : List UInt8) ≠ [] ∧
      ([46, slash, 46] : List UInt8).head? ≠ some slash := by decide
  have hup := vopLookup_dir dotVfs_tree hk rfl Nat.one_pos hview hrefers hname (by decide)
  have hnone : dotVfs.sfs.findEntry dotDin [46, slash, 46] = none := dotFs_findEntry.2
  rw [hnone] at hup
  obtain ⟨u, hup⟩ := hup
  have hlookup : (vfsLookup [46, slash, 46]).run dotVfs = .error .noent u := by
    rw [vfsLookup, bind_of_ok hrun, hhead, if_pos (by decide), hup]
  refine ⟨dotVfs_tree, dotVfs_named, u, hlookup, fun hexact ↦ ?_⟩
  rw [hlookup, lookupExact_of_error, dotVfs_named] at hexact
  cases hexact

end Calls

end Ucore
