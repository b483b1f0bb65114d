import Ucore.Lib.RefCount
import Mathlib.Logic.Relation

/-!
# The cache of in-memory inodes under several threads

`sfs_load_inode`, `inode_ref_inc`, `inode_ref_dec` and `sfs_reclaim`, run by the threads of `T` on
one file system. A thread gives up the processor only where it may wait, that is in `lock_sfs_fs`
and inside `sfs_rbuf`, `vop_truncate` and `vop_fsync`; `up` wakes a waiter and goes on. A step takes
a thread from one such place to the next.

An inode is named by its address in `A`, and `hash` is `sin_hashfn`. Of the disk there is only what
`sfs_reclaim` looks at. No count gets near the bounds of an `int`: `inode_check` stops the kernel
when an inode with `MAX_INODE_COUNT` references is used.
-/

open RefCount

namespace Ucore

/-- `struct inode` with its `sfs_inode`. -/
structure CacheNode where
  ino : ℕ
  refCount : ℤ
  reclaimCount : ℤ
  nlinks : ℕ
  dirty : Bool
  deriving DecidableEq, Repr

/-- Where a thread is. -/
inductive CachePc (A : Type)
  /-- In none of the functions. -/
  | outside
  /-- In `lock_sfs_fs` of `sfs_load_inode`. -/
  | loading (ino : ℕ)
  /-- In `sfs_rbuf` of `sfs_load_inode`. -/
  | reading (ino : ℕ)
  /-- In `lock_sfs_fs` of `sfs_reclaim`. -/
  | reclaiming (a : A)
  /-- In `vop_truncate` of `sfs_reclaim`. -/
  | truncating (a : A)
  /-- In `vop_fsync` of `sfs_reclaim`. -/
  | syncing (a : A)
  deriving DecidableEq, Repr

/-- The inodes in memory, `hash_list`, and where each thread is. -/
structure CacheState (T A H : Type) where
  node : A → Option CacheNode
  bucket : H → List A
  /-- Who holds `fs_sem`. -/
  lock : Option T
  pc : T → CachePc A
  /-- The inodes that were taken out of `hash_list` so far; nothing reads it. -/
  unlinked : List A
  /-- The inodes that were freed so far; nothing reads it. -/
  freed : List A

namespace CachePc

variable {A : Type}

/-- The inode that the thread has still to lock the file system for, to reclaim it. -/
def owes : CachePc A → Option A
  | reclaiming a => some a
  | outside | loading _ | reading _ | truncating _ | syncing _ => none

/-- The inode that the thread has found to be unused, with the lock held since. -/
def ends : CachePc A → Option A
  | truncating a | syncing a => some a
  | outside | loading _ | reading _ | reclaiming _ => none

/-- The inode that the thread is about to reclaim. -/
def target : CachePc A → Option A
  | reclaiming a | truncating a | syncing a => some a
  | outside | loading _ | reading _ => none

/-- The thread holds `fs_sem`. -/
def Holds : CachePc A → Prop
  | reading _ | truncating _ | syncing _ => True
  | outside | loading _ | reclaiming _ => False

theorem target_cases {pc : CachePc A} {a : A} (h : pc.target = some a) :
    pc.owes = some a ∨ pc.ends = some a := by
  cases pc with
  | reclaiming b => exact .inl h
  | truncating b | syncing b => exact .inr h
  | outside | loading ino | reading ino => cases h

theorem target_of_owes {pc : CachePc A} {a : A} (h : pc.owes = some a) : pc.target = some a := by
  cases pc with
  | reclaiming b => exact h
  | truncating b | syncing b | outside | loading ino | reading ino => cases h

theorem target_of_ends {pc : CachePc A} {a : A} (h : pc.ends = some a) : pc.target = some a := by
  cases pc with
  | truncating b | syncing b => exact h
  | reclaiming b | outside | loading ino | reading ino => cases h

theorem holds_of_ends {pc : CachePc A} {a : A} (h : pc.ends = some a) : pc.Holds := by
  cases pc with
  | truncating b | syncing b => exact trivial
  | reclaiming b | outside | loading ino | reading ino => cases h

end CachePc

/-- `vop_ref_inc` in `lookup_sfs_nolock`, with what follows it. -/
def CacheNode.found (n : CacheNode) : CacheNode :=
  if n.refCount + 1 = 1 then
    { n with refCount := n.refCount + 1, reclaimCount := n.reclaimCount + 1 }
  else { n with refCount := n.refCount + 1 }

/-- `sfs_create_inode`, with `inode_init`. -/
def CacheNode.create (ino nlinks : ℕ) : CacheNode where
  ino := ino
  refCount := 1
  reclaimCount := 1
  nlinks := nlinks
  dirty := false

namespace CacheState

variable {T A H : Type} [DecidableEq T] [DecidableEq A] [DecidableEq H]

/-- No inode is in memory. -/
def empty : CacheState T A H where
  node _ := none
  bucket _ := []
  lock := none
  pc _ := .outside
  unlinked := []
  freed := []

def setNode (s : CacheState T A H) (a : A) (n : CacheNode) : CacheState T A H :=
  { s with node := Function.update s.node a (some n) }

def setPc (s : CacheState T A H) (t : T) (pc : CachePc A) : CacheState T A H :=
  { s with pc := Function.update s.pc t pc }

/-- The thread goes on with the lock. -/
def hold (s : CacheState T A H) (t : T) (pc : CachePc A) : CacheState T A H :=
  { s with lock := some t, pc := Function.update s.pc t pc }

/-- `unlock_sfs_fs`, and the function returns. -/
def leave (s : CacheState T A H) (t : T) : CacheState T A H :=
  { s with lock := none, pc := Function.update s.pc t .outside }

/-- The number of an inode in memory. -/
def ino (s : CacheState T A H) (a : A) : Option ℕ := (s.node a).map CacheNode.ino

/-- The inode that `lookup_sfs_nolock` finds. -/
def lookup (hash : ℕ → H) (s : CacheState T A H) (ino : ℕ) : Option A :=
  (s.bucket (hash ino)).find? fun a ↦ s.ino a = some ino

/-- `sfs_load_inode` from `sfs_create_inode` on: the new inode is at `a`. -/
def create (hash : ℕ → H) (s : CacheState T A H) (t : T) (a : A) (ino nlinks : ℕ) :
    CacheState T A H :=
  ({ s.setNode a (.create ino nlinks) with
    bucket := Function.update s.bucket (hash ino) (a :: s.bucket (hash ino)) } :
      CacheState T A H).leave t

/-- `inode_ref_dec`, up to `lock_sfs_fs` of `sfs_reclaim`. -/
def refDec (s : CacheState T A H) (t : T) (a : A) (n : CacheNode) : CacheState T A H :=
  if n.refCount - 1 = 0 then
    (s.setNode a { n with refCount := n.refCount - 1 }).setPc t (.reclaiming a)
  else s.setNode a { n with refCount := n.refCount - 1 }

/-- `sfs_remove_links`. -/
def removeLinks (hash : ℕ → H) (s : CacheState T A H) (a : A) (n : CacheNode) : CacheState T A H :=
  { s with
    bucket := Function.update s.bucket (hash n.ino) ((s.bucket (hash n.ino)).erase a)
    unlinked := s.unlinked ++ [a] }

/-- `vop_kill`. -/
def kill (s : CacheState T A H) (a : A) : CacheState T A H :=
  { s with node := Function.update s.node a none, freed := s.freed ++ [a] }

/-- `sfs_reclaim` from `sfs_remove_links` on. -/
def reclaimEnd (hash : ℕ → H) (s : CacheState T A H) (t : T) (a : A) (n : CacheNode) :
    CacheState T A H :=
  ((s.removeLinks hash a n).leave t).kill a

/-- `sfs_reclaim` from the test of `dirty` on. -/
def reclaimDirty (hash : ℕ → H) (s : CacheState T A H) (t : T) (a : A) (n : CacheNode) :
    CacheState T A H :=
  if n.dirty then s.hold t (.syncing a) else s.reclaimEnd hash t a n

/-- `sfs_reclaim` from the return of `lock_sfs_fs` on. -/
def reclaim (hash : ℕ → H) (s : CacheState T A H) (t : T) (a : A) (n : CacheNode) :
    CacheState T A H :=
  let n := { n with reclaimCount := n.reclaimCount - 1 }
  let s := s.setNode a n
  if n.reclaimCount ≠ 0 ∨ n.refCount ≠ 0 then s.leave t
  else if n.nlinks = 0 then s.hold t (.truncating a)
  else s.reclaimDirty hash t a n

end CacheState

open CacheState

variable {T A H : Type} [DecidableEq T] [DecidableEq A] [DecidableEq H]

/-- A thread runs up to the next place where it may wait. It counts a reference up or down only if
it has one, so the count is positive then. -/
inductive CacheStep (hash : ℕ → H) : CacheState T A H → CacheState T A H → Prop
  | load {s : CacheState T A H} {t : T} (ino : ℕ) (hpc : s.pc t = .outside) :
      CacheStep hash s (s.setPc t (.loading ino))
  | found {s : CacheState T A H} {t : T} {ino : ℕ} {a : A} {n : CacheNode}
      (hpc : s.pc t = .loading ino) (hlock : s.lock = none) (hfind : s.lookup hash ino = some a)
      (hn : s.node a = some n) : CacheStep hash s ((s.setNode a n.found).leave t)
  /-- `kmalloc` fails. -/
  | noMem {s : CacheState T A H} {t : T} {ino : ℕ} (hpc : s.pc t = .loading ino)
      (hlock : s.lock = none) (hfind : s.lookup hash ino = none) : CacheStep hash s (s.leave t)
  | missing {s : CacheState T A H} {t : T} {ino : ℕ} (hpc : s.pc t = .loading ino)
      (hlock : s.lock = none) (hfind : s.lookup hash ino = none) :
      CacheStep hash s (s.hold t (.reading ino))
  /-- `sfs_rbuf` or `alloc_inode` fails. -/
  | notRead {s : CacheState T A H} {t : T} {ino : ℕ} (hpc : s.pc t = .reading ino) :
      CacheStep hash s (s.leave t)
  | read {s : CacheState T A H} {t : T} {ino : ℕ} {a : A} (nlinks : ℕ)
      (hpc : s.pc t = .reading ino) (ha : s.node a = none) (hlinks : nlinks ≠ 0) :
      CacheStep hash s (s.create hash t a ino nlinks)
  | refInc {s : CacheState T A H} {t : T} {a : A} {n : CacheNode} (hpc : s.pc t = .outside)
      (hn : s.node a = some n) (href : 0 < n.refCount) :
      CacheStep hash s (s.setNode a { n with refCount := n.refCount + 1 })
  | refDec {s : CacheState T A H} {t : T} {a : A} {n : CacheNode} (hpc : s.pc t = .outside)
      (hn : s.node a = some n) (href : 0 < n.refCount) : CacheStep hash s (s.refDec t a n)
  /-- The inode is written to. -/
  | write {s : CacheState T A H} {t : T} {a : A} {n : CacheNode} (nlinks : ℕ) (dirty : Bool)
      (hpc : s.pc t = .outside) (hn : s.node a = some n) (href : 0 < n.refCount) :
      CacheStep hash s (s.setNode a { n with nlinks, dirty })
  | reclaim {s : CacheState T A H} {t : T} {a : A} {n : CacheNode} (hpc : s.pc t = .reclaiming a)
      (hlock : s.lock = none) (hn : s.node a = some n) : CacheStep hash s (s.reclaim hash t a n)
  | notTruncated {s : CacheState T A H} {t : T} {a : A} {n : CacheNode} (dirty : Bool)
      (hpc : s.pc t = .truncating a) (hn : s.node a = some n) :
      CacheStep hash s ((s.setNode a { n with dirty }).leave t)
  | truncated {s : CacheState T A H} {t : T} {a : A} {n : CacheNode} (dirty : Bool)
      (hpc : s.pc t = .truncating a) (hn : s.node a = some n) :
      CacheStep hash s ((s.setNode a { n with dirty }).reclaimDirty hash t a { n with dirty })
  | notSynced {s : CacheState T A H} {t : T} {a : A} (hpc : s.pc t = .syncing a) :
      CacheStep hash s (s.leave t)
  | synced {s : CacheState T A H} {t : T} {a : A} {n : CacheNode} (hpc : s.pc t = .syncing a)
      (hn : s.node a = some n) : CacheStep hash s (s.reclaimEnd hash t a n)

/-- The states that are reached from an empty cache. -/
def CacheReach (hash : ℕ → H) (s : CacheState T A H) : Prop :=
  Relation.ReflTransGen (CacheStep hash) .empty s

/-! ## The hash lists -/

/-- The hash lists hold the inodes in memory, of which there is one for each number. -/
structure CacheState.Linked (hash : ℕ → H) (s : CacheState T A H) : Prop where
  mem_iff : ∀ h a, a ∈ s.bucket h ↔ ∃ i, s.ino a = some i ∧ hash i = h
  nodup : ∀ h, (s.bucket h).Nodup
  unique : ∀ a b i, s.ino a = some i → s.ino b = some i → a = b
  left : s.unlinked = s.freed

section Linked

variable {hash : ℕ → H} {s s' : CacheState T A H} {t : T} {a b : A} {n n' : CacheNode} {ino : ℕ}

namespace CacheState

omit [DecidableEq T] [DecidableEq A] [DecidableEq H] in
theorem ino_eq_none : s.ino a = none ↔ s.node a = none := Option.map_eq_none_iff

omit [DecidableEq T] [DecidableEq A] [DecidableEq H] in
theorem ino_of_node (hn : s.node a = some n) : s.ino a = some n.ino := by
  rw [ino, hn, Option.map_some]

omit [DecidableEq T] [DecidableEq H] in
/-- An inode keeps its number. -/
theorem ino_setNode (hn : s.node a = some n) (hino : n'.ino = n.ino) :
    (s.setNode a n').ino = s.ino := by
  funext b
  rw [ino, setNode]
  dsimp only
  rcases eq_or_ne b a with rfl | hne
  · rw [Function.update_self, Option.map_some, hino, ino_of_node hn]
  · rw [Function.update_of_ne hne, ino]

omit [DecidableEq T] [DecidableEq A] [DecidableEq H] in
/-- What is not found is not in memory. -/
theorem Linked.ino_ne (h : s.Linked hash) (hfind : s.lookup hash ino = none) (a : A) :
    s.ino a ≠ some ino := by
  intro hino
  have hmem : a ∈ s.bucket (hash ino) := (h.mem_iff (hash ino) a).mpr ⟨ino, hino, rfl⟩
  exact (List.find?_eq_none.mp hfind a hmem) (decide_eq_true hino)

omit [DecidableEq T] [DecidableEq A] [DecidableEq H] in
/-- What is not in memory is in no list. -/
theorem Linked.notMem (h : s.Linked hash) (ha : s.node a = none) (x : H) : a ∉ s.bucket x := by
  rw [h.mem_iff]
  rintro ⟨i, hi, -⟩
  rw [ino_eq_none.mpr ha] at hi
  cases hi

omit [DecidableEq T] [DecidableEq A] [DecidableEq H] in
theorem linked_empty : (empty : CacheState T A H).Linked hash where
  mem_iff h a := by
    refine iff_of_false List.not_mem_nil ?_
    rintro ⟨i, hi, -⟩
    cases hi
  nodup _ := List.nodup_nil
  unique a b i ha _ := by cases ha
  left := rfl

omit [DecidableEq T] [DecidableEq A] [DecidableEq H] in
/-- Neither the lock nor the place of a thread matters. -/
theorem Linked.congr (h : s.Linked hash) (hino : s'.ino = s.ino) (hbucket : s'.bucket = s.bucket)
    (hleft : s'.unlinked = s.unlinked) (hfreed : s'.freed = s.freed) : s'.Linked hash where
  mem_iff := by
    rw [hino, hbucket]
    exact h.mem_iff
  nodup := hbucket ▸ h.nodup
  unique := hino ▸ h.unique
  left := by rw [hleft, hfreed, h.left]

omit [DecidableEq T] [DecidableEq H] in
theorem Linked.setNode (h : s.Linked hash) (hn : s.node a = some n) (hino : n'.ino = n.ino) :
    (s.setNode a n').Linked hash := h.congr (ino_setNode hn hino) rfl rfl rfl

omit [DecidableEq A] [DecidableEq H] in
theorem Linked.setPc (h : s.Linked hash) (pc : CachePc A) : (s.setPc t pc).Linked hash :=
  h.congr rfl rfl rfl rfl

omit [DecidableEq A] [DecidableEq H] in
theorem Linked.hold (h : s.Linked hash) (pc : CachePc A) : (s.hold t pc).Linked hash :=
  h.congr rfl rfl rfl rfl

omit [DecidableEq A] [DecidableEq H] in
theorem Linked.leave (h : s.Linked hash) : (s.leave t).Linked hash := h.congr rfl rfl rfl rfl

theorem ino_create_self (nlinks : ℕ) : (s.create hash t a ino nlinks).ino a = some ino := by
  refine ino_of_node (n := .create ino nlinks) ?_
  exact Function.update_self a _ s.node

theorem ino_create_of_ne (nlinks : ℕ) (hne : b ≠ a) :
    (s.create hash t a ino nlinks).ino b = s.ino b :=
  congrArg (Option.map CacheNode.ino) (Function.update_of_ne hne _ s.node)

theorem Linked.create (h : s.Linked hash) (ha : s.node a = none) (hno : ∀ b, s.ino b ≠ some ino)
    (nlinks : ℕ) : (s.create hash t a ino nlinks).Linked hash where
  mem_iff x b := by
    have hnone : a ∉ s.bucket x := h.notMem ha x
    have hbucket : b ∈ (s.create hash t a ino nlinks).bucket x ↔
        (b = a ∧ hash ino = x) ∨ b ∈ s.bucket x := by
      rw [CacheState.create, CacheState.leave]
      dsimp only
      rcases eq_or_ne x (hash ino) with rfl | hne
      · rw [Function.update_self, List.mem_cons]
        exact or_congr_left (and_iff_left rfl).symm
      · rw [Function.update_of_ne hne]
        exact (or_iff_right fun hb ↦ hne hb.2.symm).symm
    rw [hbucket]
    rcases eq_or_ne b a with rfl | hne
    · rw [ino_create_self]
      constructor
      · rintro (⟨-, hx⟩ | hmem)
        · exact ⟨ino, rfl, hx⟩
        · exact absurd hmem hnone
      · rintro ⟨i, hi, hx⟩
        cases hi
        exact .inl ⟨rfl, hx⟩
    · rw [ino_create_of_ne nlinks hne, ← h.mem_iff]
      exact or_iff_right fun hb ↦ hne hb.1
  nodup x := by
    rw [CacheState.create, CacheState.leave]
    dsimp only
    rcases eq_or_ne x (hash ino) with rfl | hne
    · rw [Function.update_self, List.nodup_cons]
      exact ⟨h.notMem ha _, h.nodup _⟩
    · rw [Function.update_of_ne hne]
      exact h.nodup x
  unique b c i hb hc := by
    rcases eq_or_ne b a with rfl | hba
    · rcases eq_or_ne c b with rfl | hcb
      · rfl
      · rw [ino_create_self] at hb
        cases hb
        rw [ino_create_of_ne nlinks hcb] at hc
        exact absurd hc (hno c)
    · rw [ino_create_of_ne nlinks hba] at hb
      rcases eq_or_ne c a with rfl | hca
      · rw [ino_create_self] at hc
        cases hc
        exact absurd hb (hno b)
      · rw [ino_create_of_ne nlinks hca] at hc
        exact h.unique b c i hb hc
  left := h.left

theorem ino_reclaimEnd_self : (s.reclaimEnd hash t a n).ino a = none :=
  ino_eq_none.mpr (Function.update_self a _ s.node)

theorem ino_reclaimEnd_of_ne (hne : b ≠ a) : (s.reclaimEnd hash t a n).ino b = s.ino b :=
  congrArg (Option.map CacheNode.ino) (Function.update_of_ne hne _ s.node)

theorem Linked.reclaimEnd (h : s.Linked hash) (hn : s.node a = some n) :
    (s.reclaimEnd hash t a n).Linked hash where
  mem_iff x b := by
    have hbucket : b ∈ (s.reclaimEnd hash t a n).bucket x ↔ b ≠ a ∧ b ∈ s.bucket x := by
      rw [CacheState.reclaimEnd, CacheState.kill, CacheState.leave, CacheState.removeLinks]
      dsimp only
      rcases eq_or_ne x (hash n.ino) with rfl | hne
      · rw [Function.update_self]
        exact (h.nodup _).mem_erase_iff
      · rw [Function.update_of_ne hne]
        refine (and_iff_right_of_imp ?_).symm
        rintro hmem rfl
        obtain ⟨i, hi, hx⟩ := (h.mem_iff x b).mp hmem
        rw [ino_of_node hn] at hi
        cases hi
        exact hne hx.symm
    rw [hbucket]
    rcases eq_or_ne b a with rfl | hne
    · rw [ino_reclaimEnd_self]
      refine iff_of_false (fun hb ↦ hb.1 rfl) ?_
      rintro ⟨i, hi, -⟩
      cases hi
    · rw [ino_reclaimEnd_of_ne hne, ← h.mem_iff]
      exact and_iff_right hne
  nodup x := by
    rw [CacheState.reclaimEnd, CacheState.kill, CacheState.leave, CacheState.removeLinks]
    dsimp only
    rcases eq_or_ne x (hash n.ino) with rfl | hne
    · rw [Function.update_self]
      exact (h.nodup _).erase a
    · rw [Function.update_of_ne hne]
      exact h.nodup x
  unique b c i hb hc := by
    have hba : b ≠ a := by
      rintro rfl
      rw [ino_reclaimEnd_self] at hb
      cases hb
    have hca : c ≠ a := by
      rintro rfl
      rw [ino_reclaimEnd_self] at hc
      cases hc
    rw [ino_reclaimEnd_of_ne hba] at hb
    rw [ino_reclaimEnd_of_ne hca] at hc
    exact h.unique b c i hb hc
  left := congrArg (· ++ [a]) h.left

end CacheState

end Linked

/-! ## The counts -/

section Counted

variable [Fintype T]

/-- The number of threads that have dropped the last reference to an inode and not yet locked the
file system to reclaim it. -/
def CacheState.owing (s : CacheState T A H) (a : A) : ℕ :=
  uses Finset.univ (fun t ↦ (s.pc t).owes) a

/-- The counts of the inodes fit where the threads are. -/
structure CacheState.Counted (s : CacheState T A H) : Prop where
  nonneg : ∀ a n, s.node a = some n → 0 ≤ n.refCount
  owed : ∀ a n, s.node a = some n → n.reclaimCount = s.owing a + if 0 < n.refCount then 1 else 0
  alive : ∀ t a, (s.pc t).target = some a → s.node a ≠ none
  unused : ∀ t a n, (s.pc t).ends = some a → s.node a = some n →
    n.refCount = 0 ∧ n.reclaimCount = 0
  holder : ∀ t, (s.pc t).Holds → s.lock = some t
  missing : ∀ t ino, s.pc t = .reading ino → ∀ a, s.ino a ≠ some ino

variable {hash : ℕ → H} {s s' : CacheState T A H} {t : T} {a b : A} {n n' : CacheNode} {ino : ℕ}
  {pc : CachePc A} {lock : Option T}

namespace CacheState

omit [DecidableEq H] in
theorem owing_update (s s' : CacheState T A H) (hpc : s'.pc = Function.update s.pc t pc) (a : A) :
    (s'.owing a : ℤ) =
      s.owing a - (if (s.pc t).owes = some a then 1 else 0) +
        if pc.owes = some a then 1 else 0 := by
  have howes : (fun u ↦ (s'.pc u).owes) =
      Function.update (fun u ↦ (s.pc u).owes) t pc.owes := by
    rw [hpc]
    exact funext fun u ↦ Function.apply_update (fun _ pc ↦ CachePc.owes pc) s.pc t pc u
  rw [owing, howes, uses_update (Finset.mem_univ t)]
  rfl

omit [DecidableEq T] [DecidableEq H] in
/-- Nobody else waits to reclaim an inode whose counts are zero. -/
theorem Counted.owes_ne (h : s.Counted) (hn : s.node a = some n) (href : n.refCount = 0)
    (hreclaim : n.reclaimCount = 0) (t : T) : (s.pc t).owes ≠ some a := by
  have howed := h.owed a n hn
  rw [hreclaim, href, if_neg (lt_irrefl 0), add_zero] at howed
  have hzero : s.owing a = 0 := by exact_mod_cast howed.symm
  exact uses_eq_zero_iff.mp hzero t (Finset.mem_univ t)

omit [DecidableEq T] [DecidableEq H] in
/-- With the lock free nobody is past it. -/
theorem Counted.not_holds (h : s.Counted) (hlock : s.lock = none) (t : T) : ¬(s.pc t).Holds := by
  intro hholds
  have hheld := h.holder t hholds
  rw [hlock] at hheld
  cases hheld

omit [DecidableEq T] [DecidableEq H] in
/-- With the lock taken only its holder is past it. -/
theorem Counted.not_holds_of_ne (h : s.Counted) (ht : (s.pc t).Holds) {u : T} (hu : u ≠ t) :
    ¬(s.pc u).Holds := by
  intro hholds
  have hheld := h.holder u hholds
  rw [h.holder t ht] at hheld
  exact hu (Option.some.inj hheld).symm

omit [DecidableEq T] [DecidableEq H] in
theorem counted_empty : (empty : CacheState T A H).Counted where
  nonneg a n hn := by cases hn
  owed a n hn := by cases hn
  alive t a ha := by cases ha
  unused t a n ha := by cases ha
  holder t ht := ht.elim
  missing t ino hpc := by cases hpc

omit [DecidableEq H] in
/-- A thread goes on, and no inode changes. -/
theorem Counted.go (h : s.Counted) (howes : pc.owes = (s.pc t).owes) (hends : pc.ends = none)
    (htarget : pc.target = pc.owes) (hholds : pc.Holds → lock = some t)
    (hothers : ∀ u ≠ t, (s.pc u).Holds → lock = some u)
    (hmissing : ∀ ino, pc = .reading ino → ∀ a, s.ino a ≠ some ino) :
    ({ s with lock, pc := Function.update s.pc t pc } : CacheState T A H).Counted where
  nonneg := h.nonneg
  owed b m hm := by
    have howing := owing_update s
      ({ s with lock, pc := Function.update s.pc t pc } : CacheState T A H) rfl b
    rw [howes, sub_add_cancel] at howing
    rw [howing]
    exact h.owed b m hm
  alive u b hb := by
    dsimp only at hb
    rcases eq_or_ne u t with rfl | hu
    · rw [Function.update_self, htarget, howes] at hb
      exact h.alive u b (CachePc.target_of_owes hb)
    · rw [Function.update_of_ne hu] at hb
      exact h.alive u b hb
  unused u b m hb := by
    dsimp only at hb
    rcases eq_or_ne u t with rfl | hu
    · rw [Function.update_self, hends] at hb
      cases hb
    · rw [Function.update_of_ne hu] at hb
      exact h.unused u b m hb
  holder u hu' := by
    dsimp only at hu'
    rcases eq_or_ne u t with rfl | hu
    · rw [Function.update_self] at hu'
      exact hholds hu'
    · rw [Function.update_of_ne hu] at hu'
      exact hothers u hu hu'
  missing u ino hu' := by
    dsimp only at hu'
    rcases eq_or_ne u t with rfl | hu
    · rw [Function.update_self] at hu'
      exact hmissing ino hu'
    · rw [Function.update_of_ne hu] at hu'
      exact h.missing u ino hu'

omit [DecidableEq H] in
/-- A thread changes the counts of the inode `a` and goes on. -/
theorem Counted.move (h : s.Counted) (hn : s.node a = some n) (hino : n'.ino = n.ino)
    (hnonneg : 0 ≤ n'.refCount)
    (howed : n'.reclaimCount = n.reclaimCount - (if (s.pc t).owes = some a then 1 else 0) +
      (if pc.owes = some a then 1 else 0) - (if 0 < n.refCount then 1 else 0) +
      if 0 < n'.refCount then 1 else 0)
    (hfrom : ∀ b, (s.pc t).owes = some b → b = a) (hto : ∀ b, pc.target = some b → b = a)
    (hends : pc.ends = some a → n'.refCount = 0 ∧ n'.reclaimCount = 0)
    (hunused : ∀ u ≠ t, (s.pc u).ends = some a → n'.refCount = 0 ∧ n'.reclaimCount = 0)
    (hholds : pc.Holds → lock = some t) (hothers : ∀ u ≠ t, (s.pc u).Holds → lock = some u)
    (hreading : ∀ ino, pc ≠ .reading ino) :
    ({ s.setNode a n' with lock, pc := Function.update s.pc t pc } : CacheState T A H).Counted where
  nonneg b m hm := by
    rw [setNode] at hm
    dsimp only at hm
    rcases eq_or_ne b a with rfl | hne
    · rw [Function.update_self] at hm
      cases hm
      exact hnonneg
    · rw [Function.update_of_ne hne] at hm
      exact h.nonneg b m hm
  -- the step owes and targets only `a`, so the counts of the other inodes stay
  owed b m hm := by
    have howing := owing_update s
      ({ s.setNode a n' with lock, pc := Function.update s.pc t pc } : CacheState T A H) rfl b
    rw [setNode] at hm
    dsimp only at hm
    rcases eq_or_ne b a with rfl | hne
    · rw [Function.update_self] at hm
      cases hm
      rw [howing, howed, h.owed b n hn]
      ring
    · rw [Function.update_of_ne hne] at hm
      have hpc : pc.owes ≠ some b := fun hb ↦ hne (hto b (CachePc.target_of_owes hb))
      rw [howing, if_neg fun hb ↦ hne (hfrom b hb), if_neg hpc, sub_zero, add_zero]
      exact h.owed b m hm
  alive u b hb := by
    have hstill : s.node b ≠ none → (s.setNode a n').node b ≠ none := by
      intro hsome
      rw [setNode]
      dsimp only
      rcases eq_or_ne b a with rfl | hne
      · rw [Function.update_self]
        exact Option.some_ne_none n'
      · rw [Function.update_of_ne hne]
        exact hsome
    refine hstill ?_
    dsimp only at hb
    rcases eq_or_ne u t with rfl | hu
    · rw [Function.update_self] at hb
      rw [hto b hb, hn]
      exact Option.some_ne_none n
    · rw [Function.update_of_ne hu] at hb
      exact h.alive u b hb
  unused u b m hb hm := by
    rw [setNode] at hm
    dsimp only at hb hm
    rcases eq_or_ne b a with rfl | hne
    · rw [Function.update_self] at hm
      cases hm
      rcases eq_or_ne u t with rfl | hu
      · rw [Function.update_self] at hb
        exact hends hb
      · rw [Function.update_of_ne hu] at hb
        exact hunused u hu hb
    · rw [Function.update_of_ne hne] at hm
      rcases eq_or_ne u t with rfl | hu
      · rw [Function.update_self] at hb
        exact absurd (hto b (CachePc.target_of_ends hb)) hne
      · rw [Function.update_of_ne hu] at hb
        exact h.unused u b m hb hm
  holder u hu' := by
    dsimp only at hu'
    rcases eq_or_ne u t with rfl | hu
    · rw [Function.update_self] at hu'
      exact hholds hu'
    · rw [Function.update_of_ne hu] at hu'
      exact hothers u hu hu'
  missing u ino hu' := by
    have hsame : ({ s.setNode a n' with lock, pc := Function.update s.pc t pc } :
        CacheState T A H).ino = s.ino := ino_setNode hn hino
    rw [hsame]
    dsimp only at hu'
    rcases eq_or_ne u t with rfl | hu
    · rw [Function.update_self] at hu'
      exact absurd hu' (hreading ino)
    · rw [Function.update_of_ne hu] at hu'
      exact h.missing u ino hu'

/-- The thread that read it in puts a new inode into the cache. -/
theorem Counted.create (h : s.Counted) (hpc : s.pc t = .reading ino) (ha : s.node a = none)
    (nlinks : ℕ) : (s.create hash t a ino nlinks).Counted where
  nonneg b m hm := by
    rw [CacheState.create, CacheState.leave, setNode] at hm
    dsimp only at hm
    rcases eq_or_ne b a with rfl | hne
    · rw [Function.update_self] at hm
      cases hm
      exact zero_le_one
    · rw [Function.update_of_ne hne] at hm
      exact h.nonneg b m hm
  owed b m hm := by
    have howing : ((s.create hash t a ino nlinks).owing b : ℤ) = s.owing b := by
      rw [owing_update s (s.create hash t a ino nlinks) rfl b, hpc]
      exact (add_zero _).trans (sub_zero _)
    rw [CacheState.create, CacheState.leave, setNode] at hm
    dsimp only at hm
    rcases eq_or_ne b a with rfl | hne
    · rw [Function.update_self] at hm
      cases hm
      -- nothing was at this address, so nobody owes a reference to it
      have hzero : s.owing b = 0 := by
        refine uses_eq_zero_iff.mpr fun u _ howes ↦ ?_
        exact h.alive u b (CachePc.target_of_owes howes) ha
      rw [howing, hzero]
      rfl
    · rw [Function.update_of_ne hne] at hm
      rw [howing]
      exact h.owed b m hm
  alive u b hb := by
    rw [CacheState.create, CacheState.leave, setNode] at hb ⊢
    dsimp only at hb ⊢
    rcases eq_or_ne u t with rfl | hu
    · rw [Function.update_self] at hb
      cases hb
    · rw [Function.update_of_ne hu] at hb
      have hne : b ≠ a := by
        rintro rfl
        exact h.alive u b hb ha
      rw [Function.update_of_ne hne]
      exact h.alive u b hb
  unused u b m hb hm := by
    rw [CacheState.create, CacheState.leave, setNode] at hb hm
    dsimp only at hb hm
    rcases eq_or_ne u t with rfl | hu
    · rw [Function.update_self] at hb
      cases hb
    · rw [Function.update_of_ne hu] at hb
      have hne : b ≠ a := by
        rintro rfl
        exact h.alive u b (CachePc.target_of_ends hb) ha
      rw [Function.update_of_ne hne] at hm
      exact h.unused u b m hb hm
  holder u hu' := by
    rw [CacheState.create, CacheState.leave] at hu'
    dsimp only at hu'
    have hholds : (s.pc t).Holds := by
      rw [hpc]
      exact trivial
    rcases eq_or_ne u t with rfl | hu
    · rw [Function.update_self] at hu'
      exact hu'.elim
    · rw [Function.update_of_ne hu] at hu'
      -- `t` has `sfs_fs->mutex_sem`
      exact absurd hu' (h.not_holds_of_ne hholds hu)
  missing u i hu' := by
    rw [CacheState.create, CacheState.leave] at hu'
    dsimp only at hu'
    have hholds : (s.pc t).Holds := by
      rw [hpc]
      exact trivial
    rcases eq_or_ne u t with rfl | hu
    · rw [Function.update_self] at hu'
      cases hu'
    · rw [Function.update_of_ne hu] at hu'
      have hreading : s.pc u = .reading i := hu'
      refine absurd ?_ (h.not_holds_of_ne hholds hu)
      rw [hreading]
      exact trivial

/-- The thread that found it unused frees an inode. -/
theorem Counted.reclaimEnd (h : s.Counted) (hends : (s.pc t).ends = some a)
    (hn : s.node a = some n) : (s.reclaimEnd hash t a n).Counted := by
  obtain ⟨href, hreclaim⟩ := h.unused t a n hends hn
  have hholds : (s.pc t).Holds := CachePc.holds_of_ends hends
  have hnode : ∀ b, b ≠ a → (s.reclaimEnd hash t a n).node b = s.node b := by
    intro b hne
    rw [CacheState.reclaimEnd, CacheState.kill]
    exact Function.update_of_ne hne _ _
  have hself : (s.reclaimEnd hash t a n).node a = none := by
    rw [CacheState.reclaimEnd, CacheState.kill]
    exact Function.update_self _ _ _
  have hpcself : (s.reclaimEnd hash t a n).pc t = .outside := Function.update_self t _ s.pc
  have hpcne : ∀ u, u ≠ t → (s.reclaimEnd hash t a n).pc u = s.pc u := fun u hu ↦
    Function.update_of_ne hu _ s.pc
  have hne_of_some : ∀ b m, (s.reclaimEnd hash t a n).node b = some m → b ≠ a := by
    rintro b m hm rfl
    rw [hself] at hm
    cases hm
  refine ⟨fun b m hm ↦ ?_, fun b m hm ↦ ?_, fun u b hb ↦ ?_, fun u b m hb hm ↦ ?_,
    fun u hu' ↦ ?_, fun u i hu' ↦ ?_⟩
  · have hne := hne_of_some b m hm
    rw [hnode b hne] at hm
    exact h.nonneg b m hm
  · have hne := hne_of_some b m hm
    rw [hnode b hne] at hm
    have howes : (s.pc t).owes = none := by
      cases hpc : s.pc t with
      | truncating c | syncing c | outside | loading ino | reading ino => rfl
      | reclaiming c =>
        rw [hpc] at hends
        cases hends
    have howing : ((s.reclaimEnd hash t a n).owing b : ℤ) = s.owing b := by
      rw [owing_update s (s.reclaimEnd hash t a n) rfl b, howes]
      exact (add_zero _).trans (sub_zero _)
    rw [howing]
    exact h.owed b m hm
  · rcases eq_or_ne u t with rfl | hu
    · rw [hpcself] at hb
      cases hb
    · rw [hpcne u hu] at hb
      have hne : b ≠ a := by
        -- Nobody else is past the lock, and nobody else waits for it to reclaim this inode.
        rintro rfl
        rcases CachePc.target_cases hb with howes | hends'
        · exact h.owes_ne hn href hreclaim u howes
        · exact h.not_holds_of_ne hholds hu (CachePc.holds_of_ends hends')
      rw [hnode b hne]
      exact h.alive u b hb
  · have hne := hne_of_some b m hm
    rw [hnode b hne] at hm
    rcases eq_or_ne u t with rfl | hu
    · rw [hpcself] at hb
      cases hb
    · rw [hpcne u hu] at hb
      exact h.unused u b m hb hm
  · rcases eq_or_ne u t with rfl | hu
    · rw [hpcself] at hu'
      exact hu'.elim
    · rw [hpcne u hu] at hu'
      exact absurd hu' (h.not_holds_of_ne hholds hu)
  · rcases eq_or_ne u t with rfl | hu
    · rw [hpcself] at hu'
      cases hu'
    · rw [hpcne u hu] at hu'
      refine absurd ?_ (h.not_holds_of_ne hholds hu)
      rw [hu']
      exact trivial

omit [Fintype T] in
theorem reclaimEnd_hold :
    (s.hold t (.syncing a)).reclaimEnd hash t a n = s.reclaimEnd hash t a n := by
  rw [CacheState.reclaimEnd, CacheState.reclaimEnd, CacheState.leave, CacheState.leave]
  dsimp only [CacheState.hold, CacheState.removeLinks]
  rw [Function.update_idem]

theorem Counted.reclaimDirty (h : (s.hold t (.syncing a)).Counted) (hn : s.node a = some n) :
    (s.reclaimDirty hash t a n).Counted := by
  rw [CacheState.reclaimDirty]
  split_ifs
  · exact h
  · rw [← reclaimEnd_hold]
    refine h.reclaimEnd ?_ hn
    rw [CacheState.hold]
    dsimp only
    rw [Function.update_self, CachePc.ends]

omit [Fintype T] in
theorem Linked.reclaimDirty (h : s.Linked hash) (hn : s.node a = some n) :
    (s.reclaimDirty hash t a n).Linked hash := by
  rw [CacheState.reclaimDirty]
  split_ifs
  · exact h.hold _
  · exact h.reclaimEnd hn

omit [DecidableEq H] in
/-- A thread outside the functions changes an inode that it has a reference to. -/
theorem Counted.change (h : s.Counted) (hpc : s.pc t = .outside) (hn : s.node a = some n)
    (hino : n'.ino = n.ino) (href : 0 < n.refCount) (href' : 0 < n'.refCount)
    (hreclaim : n'.reclaimCount = n.reclaimCount) : (s.setNode a n').Counted := by
  have hmove : ({ s.setNode a n' with
      lock := s.lock
      pc := Function.update s.pc t .outside } : CacheState T A H).Counted := by
    refine h.move hn hino href'.le ?_ ?_ ?_ ?_ ?_ ?_ ?_ ?_
    · rw [hpc, hreclaim, if_pos href, if_pos href']
      simp [CachePc.owes]
    · intro b hb
      rw [hpc] at hb
      cases hb
    · intro b hb
      cases hb
    · intro hb
      cases hb
    · intro u _ hu
      exact absurd (h.unused u a n hu hn).1 href.ne'
    · exact fun hholds ↦ hholds.elim
    · exact fun u _ hu ↦ h.holder u hu
    · intro ino hread
      cases hread
  rw [← hpc, Function.update_eq_self] at hmove
  exact hmove

omit [DecidableEq H] in
/-- A lookup counts an inode up, and revives it if its last reference was dropped. -/
theorem Counted.found (h : s.Counted) (hpc : s.pc t = .loading ino) (hlock : s.lock = none)
    (hn : s.node a = some n) : ((s.setNode a n.found).leave t).Counted := by
  have hnonneg := h.nonneg a n hn
  have hpos : 0 < n.found.refCount := by
    rw [CacheNode.found]
    split_ifs <;> exact Int.lt_add_one_of_le hnonneg
  refine h.move hn ?_ hpos.le ?_ ?_ ?_ ?_ ?_ ?_ ?_ ?_
  · rw [CacheNode.found]
    split_ifs <;> rfl
  · rw [hpc, if_pos hpos, CacheNode.found]
    by_cases href : 0 < n.refCount
    -- In use: the call of `sfs_reclaim` for its references is counted already.
    · rw [if_neg fun hone ↦ href.ne' (add_eq_right.mp hone), if_pos href]
      simp [CachePc.owes]
    -- Not in use any more: it is revived, and there will be one call more.
    · have hzero : n.refCount = 0 := le_antisymm (not_lt.mp href) hnonneg
      rw [if_pos (add_eq_right.mpr hzero), if_neg href]
      simp [CachePc.owes]
  · intro b hb
    rw [hpc] at hb
    cases hb
  · intro b hb
    cases hb
  · intro hb
    cases hb
  · intro u _ hu
    exact absurd (CachePc.holds_of_ends hu) (h.not_holds hlock u)
  · exact fun hholds ↦ hholds.elim
  · exact fun u _ hu ↦ absurd hu (h.not_holds hlock u)
  · intro ino hread
    cases hread

omit [DecidableEq H] in
theorem Counted.refDec (h : s.Counted) (hpc : s.pc t = .outside) (hn : s.node a = some n)
    (href : 0 < n.refCount) : (s.refDec t a n).Counted := by
  rw [CacheState.refDec]
  split_ifs with hzero
  -- The call that was counted for the references is under way from now on.
  · refine h.move hn rfl hzero.ge ?_ ?_ ?_ ?_ ?_ ?_ ?_ ?_
    · dsimp only
      rw [hpc, if_pos href, if_neg hzero.not_gt]
      simp [CachePc.owes]
    · intro b hb
      rw [hpc] at hb
      cases hb
    · intro b hb
      exact (Option.some.inj hb).symm
    · intro hb
      cases hb
    · intro u _ hu
      exact absurd (h.unused u a n hu hn).1 href.ne'
    · exact fun hholds ↦ hholds.elim
    · exact fun u _ hu ↦ h.holder u hu
    · intro ino hread
      cases hread
  · refine h.change hpc hn rfl href ?_ rfl
    exact lt_of_le_of_ne (Int.le_sub_one_of_lt href) (Ne.symm hzero)

omit [DecidableEq T] [DecidableEq H] in
/-- A thread that waits to reclaim an inode is the one call it owes. -/
theorem Counted.reclaimCount_pos (h : s.Counted) (hpc : s.pc t = .reclaiming a)
    (hn : s.node a = some n) : 0 < n.reclaimCount := by
  have howing : 0 < s.owing a := by
    refine uses_pos (Finset.mem_univ t) ?_
    rw [hpc, CachePc.owes]
  rw [h.owed a n hn]
  split_ifs <;> positivity

omit [DecidableEq H] in
/-- `sfs_reclaim` has counted `reclaim_count` down, and the thread goes on. -/
theorem Counted.countDown (h : s.Counted) (hpc : s.pc t = .reclaiming a) (hlock : s.lock = none)
    (hn : s.node a = some n) (howes : pc.owes = none) (hto : ∀ b, pc.target = some b → b = a)
    (hends : pc.ends = some a → n.refCount = 0 ∧ n.reclaimCount - 1 = 0)
    (hholds : pc.Holds → lock = some t) (hreading : ∀ ino, pc ≠ .reading ino) :
    ({ s.setNode a { n with reclaimCount := n.reclaimCount - 1 } with
      lock
      pc := Function.update s.pc t pc } : CacheState T A H).Counted := by
  refine h.move hn rfl (h.nonneg a n hn) ?_ ?_ hto hends ?_ hholds ?_ hreading
  · rw [hpc, howes]
    simp [CachePc.owes]
  · intro b hb
    rw [hpc] at hb
    exact (Option.some.inj hb).symm
  · intro u _ hu
    exact absurd (CachePc.holds_of_ends hu) (h.not_holds hlock u)
  · exact fun u _ hu ↦ absurd hu (h.not_holds hlock u)

theorem Counted.reclaim (h : s.Counted) (hpc : s.pc t = .reclaiming a) (hlock : s.lock = none)
    (hn : s.node a = some n) : (s.reclaim hash t a n).Counted := by
  rw [CacheState.reclaim]
  dsimp only
  split_ifs with hused hlinks
  -- Another call is to come, so this one leaves the inode alone.
  · refine h.countDown hpc hlock hn rfl ?_ ?_ ?_ ?_
    · intro b hb
      cases hb
    · intro hb
      cases hb
    · exact fun hholds ↦ hholds.elim
    · intro ino hread
      cases hread
  all_goals
    rw [not_or, not_not, not_not] at hused
    obtain ⟨hreclaim, href⟩ := hused
  · refine h.countDown hpc hlock hn rfl ?_ (fun _ ↦ ⟨href, hreclaim⟩) (fun _ ↦ rfl) ?_
    · intro b hb
      exact (Option.some.inj hb).symm
    · intro ino hread
      cases hread
  -- The thread is where it would be in `vop_fsync`, whether it has to go there or not.
  · refine Counted.reclaimDirty ?_ (Function.update_self a _ s.node)
    refine h.countDown hpc hlock hn rfl ?_ (fun _ ↦ ⟨href, hreclaim⟩) (fun _ ↦ rfl) ?_
    · intro b hb
      exact (Option.some.inj hb).symm
    · intro ino hread
      cases hread

omit [Fintype T] in
theorem Linked.reclaim (h : s.Linked hash) (hn : s.node a = some n) :
    (s.reclaim hash t a n).Linked hash := by
  have hset : (s.setNode a { n with reclaimCount := n.reclaimCount - 1 }).Linked hash :=
    h.setNode hn rfl
  rw [CacheState.reclaim]
  dsimp only
  split_ifs
  · exact hset.leave
  · exact hset.hold _
  · exact hset.reclaimDirty (Function.update_self a _ s.node)

omit [DecidableEq H] in
/-- `vop_truncate` in `sfs_reclaim` has returned, and the thread goes on. -/
theorem Counted.truncated (h : s.Counted) (hpc : s.pc t = .truncating a) (hn : s.node a = some n)
    (dirty : Bool) (howes : pc.owes = none) (hto : ∀ b, pc.target = some b → b = a)
    (hholds : pc.Holds → lock = some t) (hreading : ∀ ino, pc ≠ .reading ino) :
    ({ s.setNode a { n with dirty } with
      lock
      pc := Function.update s.pc t pc } : CacheState T A H).Counted := by
  have hends : (s.pc t).ends = some a := by
    rw [hpc, CachePc.ends]
  have hheld : (s.pc t).Holds := CachePc.holds_of_ends hends
  refine h.move hn rfl (h.nonneg a n hn) ?_ ?_ hto (fun _ ↦ h.unused t a n hends hn) ?_ hholds ?_
    hreading
  · rw [hpc, howes]
    simp [CachePc.owes]
  · intro b hb
    rw [hpc] at hb
    cases hb
  · exact fun u _ hu ↦ h.unused u a n hu hn
  · exact fun u hu hholds' ↦ absurd hholds' (h.not_holds_of_ne hheld hu)

end CacheState

/-! ## Steps and runs -/

/-- The hash lists and the counts are kept by every step. -/
theorem CacheStep.keeps (hs : CacheStep hash s s') (hl : s.Linked hash) (hc : s.Counted) :
    s'.Linked hash ∧ s'.Counted := by
  cases hs with
  | load ino hpc =>
    refine ⟨hl.setPc _, hc.go ?_ rfl rfl (fun hholds ↦ hholds.elim)
      (fun u _ hu ↦ hc.holder u hu) ?_⟩
    · rw [hpc]
      rfl
    · intro i hread
      cases hread
  | found hpc hlock hfind hn =>
    refine ⟨(hl.setNode hn ?_).leave, hc.found hpc hlock hn⟩
    rw [CacheNode.found]
    split_ifs <;> rfl
  | noMem hpc hlock hfind =>
    refine ⟨hl.leave, hc.go ?_ rfl rfl (fun hholds ↦ hholds.elim)
      (fun u _ hu ↦ absurd hu (hc.not_holds hlock u)) ?_⟩
    · rw [hpc]
      rfl
    · intro i hread
      cases hread
  | missing hpc hlock hfind =>
    refine ⟨hl.hold _, hc.go ?_ rfl rfl (fun _ ↦ rfl)
      (fun u _ hu ↦ absurd hu (hc.not_holds hlock u)) ?_⟩
    · rw [hpc]
      rfl
    -- While the lock is held nobody else puts the inode into the cache.
    · intro i hread
      cases hread
      exact hl.ino_ne hfind
  | notRead hpc =>
    refine ⟨hl.leave, hc.go ?_ rfl rfl (fun hholds ↦ hholds.elim) ?_ ?_⟩
    · rw [hpc]
      rfl
    · refine fun u hu hholds ↦ absurd hholds (hc.not_holds_of_ne ?_ hu)
      rw [hpc]
      exact trivial
    · intro i hread
      cases hread
  | read nlinks hpc ha hlinks =>
    exact ⟨hl.create ha (hc.missing _ _ hpc) nlinks, hc.create hpc ha nlinks⟩
  | refInc hpc hn href =>
    exact ⟨hl.setNode hn rfl, hc.change hpc hn rfl href (Int.lt_add_one_of_le href.le) rfl⟩
  | refDec hpc hn href =>
    refine ⟨?_, hc.refDec hpc hn href⟩
    rw [CacheState.refDec]
    split_ifs
    · refine Linked.setPc ?_ _
      exact hl.setNode hn rfl
    · exact hl.setNode hn rfl
  | write nlinks dirty hpc hn href =>
    exact ⟨hl.setNode hn rfl, hc.change hpc hn rfl href href rfl⟩
  | reclaim hpc hlock hn => exact ⟨hl.reclaim hn, hc.reclaim hpc hlock hn⟩
  | notTruncated dirty hpc hn =>
    refine ⟨Linked.leave ?_, hc.truncated hpc hn dirty rfl ?_ (fun hholds ↦ hholds.elim) ?_⟩
    · exact hl.setNode hn rfl
    · intro b hb
      cases hb
    · intro i hread
      cases hread
  | truncated dirty hpc hn =>
    refine ⟨Linked.reclaimDirty ?_ (Function.update_self _ _ s.node),
      Counted.reclaimDirty ?_ (Function.update_self _ _ s.node)⟩
    · exact hl.setNode hn rfl
    · refine hc.truncated hpc hn dirty rfl ?_ (fun _ ↦ rfl) ?_
      · intro b hb
        exact (Option.some.inj hb).symm
      · intro i hread
        cases hread
  | notSynced hpc =>
    refine ⟨hl.leave, hc.go ?_ rfl rfl (fun hholds ↦ hholds.elim) ?_ ?_⟩
    · rw [hpc]
      rfl
    · refine fun u hu hholds ↦ absurd hholds (hc.not_holds_of_ne ?_ hu)
      rw [hpc]
      exact trivial
    · intro i hread
      cases hread
  | synced hpc hn =>
    refine ⟨hl.reclaimEnd hn, hc.reclaimEnd ?_ hn⟩
    rw [hpc, CachePc.ends]

theorem CacheReach.keeps (h : CacheReach hash s) : s.Linked hash ∧ s.Counted := by
  induction h with
  | refl => exact ⟨linked_empty, counted_empty⟩
  | tail _ hs ih => exact hs.keeps ih.1 ih.2

/-! ## Freed inodes -/

omit [DecidableEq T] [DecidableEq H] [Fintype T] in
theorem CacheState.setNode_ne_none (hb : s.node b ≠ none) : (s.setNode a n).node b ≠ none := by
  rw [setNode]
  dsimp only
  rcases eq_or_ne b a with rfl | hne
  · rw [Function.update_self]
    exact Option.some_ne_none n
  · rw [Function.update_of_ne hne]
    exact hb

omit [Fintype T] in
/-- Only the inode that is reclaimed is freed. -/
theorem CacheState.eq_of_reclaimEnd (hb : s.node b ≠ none)
    (hfreed : (s.reclaimEnd hash t a n).node b = none) : b = a := by
  by_contra hne
  have hsame : (s.reclaimEnd hash t a n).node b = s.node b := by
    rw [reclaimEnd, kill]
    exact Function.update_of_ne hne _ _
  exact hb (hsame ▸ hfreed)

omit [Fintype T] in
theorem CacheState.eq_of_reclaimDirty (hb : s.node b ≠ none)
    (hfreed : (s.reclaimDirty hash t a n).node b = none) : b = a := by
  rw [reclaimDirty] at hfreed
  split_ifs at hfreed
  · exact absurd hfreed hb
  · exact eq_of_reclaimEnd hb hfreed

/-- A step frees an inode only when its last reference is gone. -/
theorem CacheStep.refCount_of_freed (hs : CacheStep hash s s') (hc : s.Counted)
    (hb : s.node b = some n') (hfreed : s'.node b = none) : n'.refCount = 0 := by
  have hsome : s.node b ≠ none := by
    rw [hb]
    exact Option.some_ne_none n'
  cases hs with
  | load _ hpc | noMem hpc hlock hfind | missing hpc hlock hfind | notRead hpc | notSynced hpc =>
    exact absurd hfreed hsome
  | found hpc hlock hfind hn | refInc hpc hn href | write _ _ hpc hn href
  | notTruncated _ hpc hn | read _ hpc ha hlinks =>
    exact absurd hfreed (setNode_ne_none hsome)
  | refDec hpc hn href =>
    rw [CacheState.refDec] at hfreed
    split_ifs at hfreed
    all_goals exact absurd hfreed (setNode_ne_none hsome)
  | reclaim hpc hlock hn =>
    rw [CacheState.reclaim] at hfreed
    dsimp only at hfreed
    split_ifs at hfreed with hused hlinks
    · exact absurd hfreed (setNode_ne_none hsome)
    · exact absurd hfreed (setNode_ne_none hsome)
    · cases eq_of_reclaimDirty (setNode_ne_none hsome) hfreed
      cases hb.symm.trans hn
      rw [not_or, not_not, not_not] at hused
      exact hused.2
  | truncated dirty hpc hn =>
    cases eq_of_reclaimDirty (setNode_ne_none hsome) hfreed
    exact (hc.unused _ _ _ (congrArg CachePc.ends hpc) hb).1
  | synced hpc hn =>
    cases eq_of_reclaimEnd hsome hfreed
    exact (hc.unused _ _ _ (congrArg CachePc.ends hpc) hb).1

/-- What the cache promises. -/
structure CacheState.Exact (hash : ℕ → H) (s : CacheState T A H) : Prop where
  /-- There is at most one inode in memory for a disk inode. -/
  unique : ∀ a b n m, s.node a = some n → s.node b = some m → n.ino = m.ino → a = b
  /-- The inodes in memory are those in the hash lists, each in one place. -/
  cached : ∀ a h, a ∈ s.bucket h ↔ ∃ n, s.node a = some n ∧ hash n.ino = h
  nodup : ∀ h, (s.bucket h).Nodup
  /-- `reclaim_count` is the number of calls of `sfs_reclaim` to come: one for every thread that is
  on its way to the lock, and one for the references there are. -/
  owed : ∀ a n, s.node a = some n → n.reclaimCount = s.owing a + if 0 < n.refCount then 1 else 0
  /-- No thread is about to reclaim an inode that is not there any more. -/
  alive : ∀ t a, (s.pc t).target = some a → s.node a ≠ none
  /-- What has left the cache was freed, as often and in the same order. -/
  freed : s.freed = s.unlinked
  /-- The assertion in `sfs_reclaim` holds. -/
  asserts : ∀ t a n, s.pc t = .reclaiming a → s.node a = some n → 0 < n.reclaimCount

/-- In whatever order the threads run, the cache keeps its promises, and an inode is freed only when
it has no reference left and nobody else is about to reclaim it. -/
theorem inodeCache_exact (h : CacheReach hash s) : s.Exact hash ∧ ∀ s', CacheStep hash s s' →
    ∀ a n, s.node a = some n → s'.node a = none →
      n.refCount = 0 ∧ ∀ t, (s'.pc t).target ≠ some a := by
  obtain ⟨hl, hc⟩ := h.keeps
  refine ⟨⟨fun a b n m hn hm hino ↦ ?_, fun a x ↦ ?_, hl.nodup, hc.owed, hc.alive, hl.left.symm,
    fun t a n hpc hn ↦ hc.reclaimCount_pos hpc hn⟩, fun s' hs a n hn hfreed ↦ ⟨?_, ?_⟩⟩
  · exact hl.unique a b n.ino (ino_of_node hn) (hino ▸ ino_of_node hm)
  · rw [hl.mem_iff]
    constructor
    · rintro ⟨i, hi, hx⟩
      obtain ⟨n, hn, rfl⟩ := Option.map_eq_some_iff.mp hi
      exact ⟨n, hn, hx⟩
    · rintro ⟨n, hn, hx⟩
      exact ⟨n.ino, ino_of_node hn, hx⟩
  · exact hs.refCount_of_freed hc hn hfreed
  · intro t htarget
    exact (hs.keeps hl hc).2.alive t a htarget hfreed

/-- One thread drops the last reference, another finds the inode, and the first then leaves it. -/
theorem inodeCache_exact_sample : ∃ s : CacheState Bool Unit Unit,
    CacheReach (fun _ ↦ ()) s ∧ s.node () = some ⟨1, 1, 1, 1, false⟩ ∧
      s.pc false = .outside ∧ s.Exact fun _ ↦ () := by
  have hempty : CacheReach (fun _ ↦ ()) (empty : CacheState Bool Unit Unit) := .refl
  have hload := hempty.tail (.load (t := false) 1 rfl)
  have hmissing := hload.tail (.missing (t := false) rfl rfl rfl)
  have hread := hmissing.tail (.read (t := false) (a := ()) 1 rfl rfl one_ne_zero)
  have hdec := hread.tail (.refDec (t := false) (a := ()) rfl rfl zero_lt_one)
  have hagain := hdec.tail (.load (t := true) 1 rfl)
  have hfound := hagain.tail (.found (t := true) (a := ()) rfl rfl rfl rfl)
  have hreclaim := hfound.tail (.reclaim (t := false) (a := ()) rfl rfl rfl)
  exact ⟨_, hreclaim, rfl, rfl, (inodeCache_exact hreclaim).1⟩

end Counted

end Ucore
