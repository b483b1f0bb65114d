import Ucore.Vfs.Lookup

/-!
# Opening and closing

`vfs_open` and `vfs_close` of `kern/fs/vfs/vfsfile.c`. What `vfs_open` is to do with the counts is
`Balanced`: an error leaves them as they were, a success adds one reference and one opening to the
inode, and `vfs_close` takes both away. It does so on every path with one exception, the one between
a lookup that has found a file and `-E_EXISTS` (`vfsOpen_balanced_iff`).
-/

namespace Ucore

open Bytes Prog Vfs

/-! ## The routines -/

def oCreat : BitVec 32 := 4

def oExcl : BitVec 32 := 8

def oTrunc : BitVec 32 := 16

def oAppend : BitVec 32 := 32

def oAccmode : BitVec 32 := 3

def sfsOpendir (openFlags : BitVec 32) : Option Errno :=
  if openFlags &&& oAccmode ≠ 0 then some .isDir
  else if openFlags &&& oAppend ≠ 0 then some .isDir
  else none

def devOpen (dev : DevNode) (openFlags : BitVec 32) : Option Errno :=
  if openFlags &&& (oCreat ||| oTrunc ||| oExcl ||| oAppend) ≠ 0 then some .inval
  else dev.dOpen openFlags

/-- The end of a routine that returns `ret`. -/
def ret (e : Option Errno) : VfsProg Unit :=
  match e with
  | some e => fail e
  | none => pure ()

/-- `vop_open`; `sfs_openfile` returns 0. -/
def vopOpen (n : Node) (openFlags : BitVec 32) : VfsProg Unit := do
  inodeCheck n
  match n with
  | .sfs ino => do
    let sin ← onSfs (getSin ino)
    ret (if sin.din.type = sfsTypeDir then sfsOpendir openFlags else none)
  | .dev d => do
    let s ← get
    ret (devOpen (s.dev d) openFlags)

/-- `vop_truncate`, which only files have. -/
def vopTruncateNode (n : Node) (len : ℤ) : VfsProg Unit := do
  inodeCheck n
  match n with
  | .sfs ino => onSfs (vopTruncate ino len)
  | .dev _ => halt

/-- `vfs_open` behind `assert(node != NULL)`. -/
def vfsOpenNode (node : Node) (openFlags : BitVec 32) : VfsProg Node := do
  let r ← attempt (vopOpen node openFlags)
  match r with
  | .error e => do
    inodeRefDec node
    fail e
  | .ok () => do
    inodeOpenInc node
    if openFlags &&& oTrunc ≠ 0 ∨ openFlags &&& oCreat ≠ 0 then do
      let r ← attempt (vopTruncateNode node 0)
      match r with
      | .error e => do
        inodeOpenDec node
        inodeRefDec node
        fail e
      | .ok () => pure node
    else
      pure node

/-- The checks of `vfs_open` on its flags: they name an access mode, and what is to be truncated can
be written. -/
def FlagsOk (openFlags : BitVec 32) : Prop :=
  openFlags &&& oAccmode ≠ 3 ∧ (openFlags &&& oTrunc ≠ 0 → openFlags &&& oAccmode ≠ 0)

instance (openFlags : BitVec 32) : Decidable (FlagsOk openFlags) :=
  inferInstanceAs (Decidable (_ ∧ _))

/-- `vfs_open` when the lookup has failed with `e`. The path is the one that the lookup has left,
and `vop_create` is an operation that no inode has. -/
def vfsOpenMissing (path : List UInt8) (openFlags : BitVec 32) (e : Errno) : VfsProg Node :=
  if e = .noent ∧ openFlags &&& oCreat ≠ 0 then do
    let _ ← getDevice (pathLeft path)
    halt
  else
    fail e

def vfsOpen (path : List UInt8) (openFlags : BitVec 32) : VfsProg Node :=
  if FlagsOk openFlags then do
    let r ← attempt (vfsLookup path)
    match r with
    | .error e => vfsOpenMissing path openFlags e
    | .ok node =>
      if openFlags &&& oExcl ≠ 0 ∧ openFlags &&& oCreat ≠ 0 then fail .exists
      else vfsOpenNode node openFlags
  else
    fail .inval

def vfsClose (node : Node) : VfsProg Unit := do
  inodeOpenDec node
  inodeRefDec node

/-! ## The balance -/

/-- What `vfs_open` is to do with the counts. -/
structure Balanced (s : Vfs) (o : Outcome Errno Vfs Node) : Prop where
  /-- After an error they are as before. -/
  error : ∀ e t, o = .error e t → t.counts = s.counts
  /-- After a success those of the inode are raised by one. -/
  ok : ∀ n t, o = .ok n t →
    t.counts = Function.update s.counts n ((s.counts n).1 + 1, (s.counts n).2 + 1)
  /-- And closing it restores them. -/
  close : ∀ n t, o = .ok n t →
    ((vfsClose n).run t).Sat (fun _ u ↦ u.counts = s.counts) fun _ _ ↦ False

section Open

variable {s : Vfs} {path : List UInt8} {openFlags : BitVec 32}

theorem moves_ret (e : Option Errno) : Moves (Same Vfs.counts) (ret e) := by
  cases e with
  | some e => exact Moves.fail e
  | none => exact Moves.pure ()

theorem moves_vopOpen (n : Node) (openFlags : BitVec 32) :
    Moves (Same Vfs.counts) (vopOpen n openFlags) := by
  refine (moves_inodeCheck n).bind fun _ ↦ ?_
  cases n with
  | sfs ino => exact (moves_onSfs (moves_getSin_self ino)).bind fun _ ↦ moves_ret _
  | dev d => exact Moves.get.bind fun _ ↦ moves_ret _

theorem moves_vopTruncateNode (n : Node) (len : ℤ) :
    Moves (Same Vfs.counts) (vopTruncateNode n len) := by
  refine (moves_inodeCheck n).bind fun _ ↦ ?_
  cases n with
  | sfs ino => exact moves_onSfs (moves_vopTruncate ino len)
  | dev d => exact Moves.halt

/-- From the reference that the lookup has taken, `vfs_open` goes on to one reference and one
opening, or back. -/
theorem vfsOpenNode_sat {t : Vfs} (n : Node) (openFlags : BitVec 32)
    (ht : Shifts (Pi.single n 1) 0 s t) : ((vfsOpenNode n openFlags).run t).Sat
      (fun m u ↦ m = n ∧ Shifts (Pi.single n 1) (Pi.single n 1) s u)
      fun _ u ↦ Shifts 0 0 s u := by
  have hopen := moves_vopOpen n openFlags t
  rw [vfsOpenNode, run_bind, run_attempt]
  cases hrun : (vopOpen n openFlags).run t with
  | panic => trivial
  | error e u =>
    rw [hrun] at hopen
    have hu : Shifts (Pi.single n 1) 0 s u := ht.trans_of_same (.of_counts hopen)
    refine sat_bind ((inodeRefDec_sat n u).imp (fun _ _ h ↦ hu.trans h) fun _ _ h ↦ h.elim)
      fun _ v hv ↦ ?_
    rwa [add_zero, add_neg_cancel] at hv
  | ok a u =>
    rw [hrun] at hopen
    have hu : Shifts (Pi.single n 1) 0 s u := ht.trans_of_same (.of_counts hopen)
    refine sat_bind ((inodeOpenInc_sat n u).imp (fun _ _ h ↦ hu.trans h) fun _ _ h ↦ h.elim)
      fun _ v hv ↦ ?_
    rw [add_zero, zero_add] at hv
    split
    swap
    · exact ⟨rfl, hv⟩
    have htrunc := moves_vopTruncateNode n 0 v
    rw [run_bind, run_attempt]
    cases hrun' : (vopTruncateNode n 0).run v with
    | panic => trivial
    | ok a w =>
      rw [hrun'] at htrunc
      exact ⟨rfl, hv.trans_of_same (.of_counts htrunc)⟩
    | error e w =>
      rw [hrun'] at htrunc
      have hw := hv.trans_of_same (.of_counts htrunc)
      refine sat_bind ((inodeOpenDec_sat n w).imp (fun _ _ h ↦ hw.trans h) fun _ _ h ↦ h.elim)
        fun _ x hx ↦ ?_
      refine sat_bind ((inodeRefDec_sat n x).imp (fun _ _ h ↦ hx.trans h) fun _ _ h ↦ h.elim)
        fun _ y hy ↦ ?_
      rwa [add_zero, add_neg_cancel, add_zero] at hy

theorem vfsClose_sat {t : Vfs} {n : Node} (ht : Shifts (Pi.single n 1) (Pi.single n 1) s t) :
    ((vfsClose n).run t).Sat (fun _ u ↦ u.counts = s.counts) fun _ _ ↦ False := by
  refine sat_bind ((inodeOpenDec_sat n t).imp (fun _ _ h ↦ ht.trans h) fun _ _ h ↦ h.elim)
    fun _ u hu ↦ ?_
  refine (inodeRefDec_sat n u).imp (fun _ v hv ↦ ?_) fun _ _ h ↦ h
  have hboth := hu.trans hv
  rw [add_zero, add_neg_cancel, add_zero] at hboth
  exact hboth.counts_eq

/-- One reference and one opening more, as numbers that are not negative. -/
theorem counts_of_shifts {t : Vfs} {n : Node} (h : Shifts (Pi.single n 1) (Pi.single n 1) s t) :
    t.counts = Function.update s.counts n ((s.counts n).1 + 1, (s.counts n).2 + 1) := by
  funext m
  have hrefs := congrFun h.refs m
  have hopens := congrFun h.opens m
  rw [Vfs.refs, Pi.add_apply, Vfs.refs] at hrefs
  rw [Vfs.opens, Pi.add_apply, Vfs.opens] at hopens
  by_cases hm : m = n
  · rw [hm, Pi.single_eq_same] at hrefs hopens
    rw [hm, Function.update_self]
    exact Prod.ext (by exact_mod_cast hrefs) (by exact_mod_cast hopens)
  · rw [Pi.single_eq_of_ne hm, add_zero] at hrefs hopens
    rw [Function.update_of_ne hm]
    exact Prod.ext (by exact_mod_cast hrefs) (by exact_mod_cast hopens)

theorem balanced_of_sat {o : Outcome Errno Vfs Node}
    (h : o.Sat (fun n t ↦ Shifts (Pi.single n 1) (Pi.single n 1) s t) fun _ t ↦ Shifts 0 0 s t) :
    Balanced s o where
  error := by
    rintro e t rfl
    exact h.counts_eq
  ok := by
    rintro n t rfl
    exact counts_of_shifts h
  close := by
    rintro n t rfl
    exact vfsClose_sat h

/-- `vfs_open` balances the counts exactly when it does not come to the point where a file that is
to be made is found: there the reference of the lookup is not dropped. -/
theorem vfsOpen_balanced_iff (path : List UInt8) (openFlags : BitVec 32) (s : Vfs) :
    Balanced s ((vfsOpen path openFlags).run s) ↔
      ¬(FlagsOk openFlags ∧ openFlags &&& oExcl ≠ 0 ∧ openFlags &&& oCreat ≠ 0 ∧
        ∃ n t, (vfsLookup path).run s = .ok n t) := by
  have hlookup := refers_vfsLookup path s
  by_cases hflags : FlagsOk openFlags
  swap
  · rw [vfsOpen, if_neg hflags]
    exact ⟨fun _ h ↦ hflags h.1, fun _ ↦ balanced_of_sat (Shifts.refl s)⟩
  rw [vfsOpen, if_pos hflags, run_bind, run_attempt]
  cases hrun : (vfsLookup path).run s with
  | panic =>
    refine ⟨fun _ h ↦ ?_, fun _ ↦ balanced_of_sat trivial⟩
    obtain ⟨-, -, -, n, t, hc⟩ := h
    cases hc
  | error e t =>
    rw [hrun] at hlookup
    refine ⟨fun _ h ↦ ?_, fun _ ↦ balanced_of_sat ?_⟩
    · obtain ⟨-, -, -, n, t, hc⟩ := h
      cases hc
    · dsimp only
      rw [vfsOpenMissing]
      split
      · refine sat_bind ((refers_getDevice _ t).imp (fun _ _ h ↦ hlookup.of_same_trans h)
          fun _ _ h ↦ hlookup.of_same_trans h) fun _ _ _ ↦ trivial
      · exact hlookup
  | ok n t =>
    rw [hrun] at hlookup
    dsimp only
    by_cases hboth : openFlags &&& oExcl ≠ 0 ∧ openFlags &&& oCreat ≠ 0
    · rw [if_pos hboth]
      refine ⟨fun hbal ↦ ?_, fun hno ↦ absurd ⟨hflags, hboth.1, hboth.2, n, t, rfl⟩ hno⟩
      -- the reference is still there
      have hsame := hbal.error .exists t rfl
      have hone := congrFun hlookup.refs n
      rw [Vfs.refs, Pi.add_apply, Pi.single_eq_same, Vfs.refs, hsame] at hone
      omega
    · rw [if_neg hboth]
      refine ⟨fun _ h ↦ hboth ⟨h.2.1, h.2.2.1⟩, fun _ ↦ balanced_of_sat ?_⟩
      refine (vfsOpenNode_sat n openFlags hlookup).imp (fun m u hu ↦ ?_) fun _ _ h ↦ h
      obtain ⟨rfl, hu⟩ := hu
      exact hu

/-- A machine with the keyboard, whose inode has the reference of the table of devices. -/
def stdinVfs : Vfs where
  sfs := sampleFs
  dev _ := ⟨1, 0, fun _ ↦ none, none⟩
  vdevList := [⟨[115, 116, 100, 105, 110], 0, false, false⟩]
  pwd := none
  bootfsNode := none
  grants := []

/-- Opening `stdin:` with `O_CREAT` and `O_EXCL` leaves a reference behind. -/
theorem vfsOpen_not_balanced_sample : ∃ t,
    (vfsOpen [115, 116, 100, 105, 110, colon] (oCreat ||| oExcl)).run stdinVfs =
      .error .exists t ∧ stdinVfs.counts (.dev 0) = (1, 0) ∧ t.counts (.dev 0) = (2, 0) ∧
    ¬Balanced stdinVfs
      ((vfsOpen [115, 116, 100, 105, 110, colon] (oCreat ||| oExcl)).run stdinVfs) := by
  have hrun : ∃ t, (vfsOpen [115, 116, 100, 105, 110, colon] (oCreat ||| oExcl)).run stdinVfs =
      .error .exists t ∧ t.counts (.dev 0) = (2, 0) := ⟨_, rfl, rfl⟩
  obtain ⟨t, hrun, hcounts⟩ := hrun
  refine ⟨t, hrun, rfl, hcounts, fun hbal ↦ ?_⟩
  have hsame := congrFun (hbal.error _ _ hrun) (.dev 0)
  rw [hcounts] at hsame
  cases hsame

end Open

end Ucore
