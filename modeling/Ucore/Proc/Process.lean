import Ucore.Sched.Schedule

/-!
# Processes

`do_fork`, `do_exit`, `do_wait`, `do_kill` and `do_execve` of `kern/process/proc.c` with what they
call in `kern/mm/vmm.c` and `kern/fs/fs.c`, section by section, and the steps of the kernel. The
addresses and pages that allocations answer, and which of them fail, are parameters.
-/

namespace Ucore

open Prog

/-! ## Process sets -/

/-- `hash32` with 10 bits. -/
def pidHashfn (pid : ℕ) : ℕ := ((BitVec.ofNat 32 pid * 0x9e370001#32) >>> 22).toNat

namespace Kernel

variable (s : Kernel)

def hashProc (p : ℕ) : Kernel :=
  let b := pidHashfn (s.proc p).pid
  { s with hashList := Function.update s.hashList b (p :: s.hashList b) }

def unhashProc (p : ℕ) : Kernel :=
  let b := pidHashfn (s.proc p).pid
  { s with hashList := Function.update s.hashList b ((s.hashList b).erase p) }

def findProc (pid : ℕ) : Option ℕ :=
  if 0 < pid ∧ pid < maxPid then
    (s.hashList (pidHashfn pid)).find? fun p ↦ (s.proc p).pid = pid
  else none

/-- The assignment `q->yptr = v`, for `q` not `NULL`. -/
def setYptr (q : Option ℕ) (v : Option ℕ) : Kernel :=
  match q with
  | none => s
  | some q => s.setProc q fun r ↦ { r with yptr := v }

/-- Put `p` in front of the children of `q`. -/
def adopt (p q : ℕ) : Kernel :=
  let s₁ := s.setProc p fun r ↦ { r with yptr := none }
  let o := (s₁.proc q).cptr
  let s₂ := s₁.setProc p fun r ↦ { r with optr := o }
  let s₃ := s₂.setYptr o (some p)
  s₃.setProc q fun r ↦ { r with cptr := some p }

def setLinks (p q : ℕ) : Kernel :=
  { s.adopt p q with
    procList := p :: s.procList
    nrProcess := s.nrProcess + 1 }

def removeLinks (p : ℕ) : Kernel :=
  let s₁ := s.setYptr (s.proc p).optr (s.proc p).yptr
  let s₂ := match (s₁.proc p).yptr with
    | some y => s₁.setProc y fun r ↦ { r with optr := (s₁.proc p).optr }
    | none =>
      match (s₁.proc p).parent with
      | some q => s₁.setProc q fun r ↦ { r with cptr := (s₁.proc p).optr }
      | none => s₁
  { s₂ with
    procList := s₂.procList.erase p
    nrProcess := s₂.nrProcess - 1 }

/-- The loop of `do_wait` over the children, from `c` on: the first zombie. A process has no more
children than there are processes. -/
def firstZombie : ℕ → Option ℕ → Option ℕ
  | 0, _ => none
  | _ + 1, none => none
  | fuel + 1, some c =>
    if (s.proc c).state = .zombie then some c else firstZombie fuel (s.proc c).optr

/-! ## Memory -/

/-- The pages that the arena of `kmalloc` takes. -/
def growArena (k : Kmalloc) : Kernel :=
  s.setMem fun m ↦ { m with freePages := m.freePages \ k.grown }

/-- `alloc_pages`. -/
def takePages (pages : Finset ℕ) : Kernel :=
  s.setMem fun m ↦ { m with freePages := m.freePages \ pages }

/-- `free_pages`. -/
def givePages (pages : Finset ℕ) : Kernel :=
  s.setMem fun m ↦ { m with freePages := m.freePages ∪ pages }

/-- The pages of a kernel stack. -/
def kstackPages (page : ℕ) : Finset ℕ := {page, page + 1}

def putKstack (p : ℕ) : Kernel :=
  match (s.proc p).kstack with
  | some page => s.givePages (kstackPages page)
  | none => s

/-- `mm_create` and `setup_pgdir`. -/
def mmCreate (m pgdir : ℕ) : Kernel :=
  (s.takePages {pgdir}).setMem fun mem ↦ { mem with
    mm := Function.update mem.mm m ⟨0, pgdir, ∅⟩
    mmLive := insert m mem.mmLive }

/-- Pages for an address space. -/
def mmPages (m : ℕ) (pages lost : Finset ℕ) : Kernel :=
  (s.takePages (pages ∪ lost)).setMem fun mem ↦ { mem with
    mm := Function.update mem.mm m { mem.mm m with pages := (mem.mm m).pages ∪ pages } }

/-- `exit_mmap`, `put_pgdir` and `mm_destroy`. -/
def mmFree (m : ℕ) : Kernel :=
  (s.givePages (insert (s.mem.mm m).pgdir (s.mem.mm m).pages)).setMem fun mem ↦ { mem with
    mmLive := mem.mmLive.erase m }

/-- `mm_count_inc` and `mm_count_dec`. -/
def mmCountAdd (m : ℕ) (d : ℤ) : Kernel :=
  s.setMem fun mem ↦ { mem with
    mm := Function.update mem.mm m { mem.mm m with count := (mem.mm m).count + d } }

/-- `copy_mm` from `good_mm` on. -/
def goodMm (p m : ℕ) : Kernel :=
  (s.mmCountAdd m 1).setProc p fun q ↦ { q with mm := some m, cr3 := some (s.mem.mm m).pgdir }

/-- Change an open-file table. -/
def setFiles (f : ℕ) (g : Files → Files) : Kernel :=
  s.setMem fun mem ↦ { mem with files := Function.update mem.files f (g (mem.files f)) }

/-- Change an entry of an open-file table. -/
def setFile (f fd : ℕ) (g : File → File) : Kernel :=
  s.setFiles f fun files ↦ { files with file := Function.update files.file fd (g (files.file fd)) }

def filesCreate (f page : ℕ) : Kernel :=
  (s.takePages {page}).setMem fun mem ↦ { mem with
    files := Function.update mem.files f ⟨0, page, fun _ ↦ ⟨.none, 0, 0⟩⟩
    filesLive := insert f mem.filesLive }

/-- `dup_files`: the open entries of `g` are open in `f`. -/
def dupFiles (f g : ℕ) : Kernel :=
  s.setFiles f fun files ↦ { files with
    file := fun fd ↦
      if fd < filesStructNentry ∧ ((s.mem.files g).file fd).status = .opened then
        ⟨.opened, (files.file fd).openCount + 1, ((s.mem.files g).file fd).node⟩
      else files.file fd }

/-- `kfree` of an open-file table. -/
def filesFree (f : ℕ) : Kernel :=
  (s.givePages {(s.mem.files f).page}).setMem fun mem ↦ { mem with
    filesLive := mem.filesLive.erase f }

end Kernel

/-! ## do_fork -/

/-- `bad_fork_cleanup_kstack` and `bad_fork_cleanup_proc`. -/
def badForkCleanupKstack (p : ℕ) : KProg Unit := modify fun s ↦ (s.putKstack p).kfreeProc p

/-- `do_fork` up to `copy_mm`. -/
def forkAlloc (mem : ForkMem) : KProg ℕ := do
  let s ← get
  if maxProcess ≤ s.nrProcess then
    fail .noFreeProc
  else
    modify fun s ↦ s.growArena mem.proc
    match mem.proc.addr with
    | none => fail .noMem
    | some p =>
      modify fun s ↦ (s.allocProc p).setProc p fun q ↦ { q with parent := some s.current }
      let s ← get
      assert ((s.proc s.current).waitState = 0)
      match mem.kstack with
      | none =>
        modify fun s ↦ s.kfreeProc p
        fail .noMem
      | some page =>
        modify fun s ↦ (s.takePages (Kernel.kstackPages page)).setProc p fun q ↦
          { q with kstack := some page }
        return p

/-- How `copy_mm` goes on. -/
inductive CopyMm
  /-- There is nothing left to do. -/
  | done
  /-- The pages are copied to the address space `m`. -/
  | dup (m : ℕ)

/-- `copy_mm` up to `lock_mm`. -/
def copyMmAlloc (flags : BitVec 32) (p : ℕ) (mem : ForkMem) : KProg CopyMm := do
  let s ← get
  match (s.proc s.current).mm with
  | none => return .done
  | some oldmm =>
    if flags &&& cloneVm ≠ 0 then
      modify fun s ↦ s.goodMm p oldmm
      return .done
    else
      modify fun s ↦ s.growArena mem.mm
      match mem.mm.addr with
      | none => fail .noMem
      | some m =>
        match mem.pgdir with
        | none => fail .noMem
        | some pgdir =>
          modify fun s ↦ s.mmCreate m pgdir
          return .dup m

def dupMmap (m : ℕ) (mem : ForkMem) : KProg Unit :=
  modify fun s ↦ s.mmPages m mem.dupPages mem.dupLost

/-- `copy_mm` after `unlock_mm`. -/
def copyMmGood (p m : ℕ) (mem : ForkMem) : KProg Unit :=
  if mem.dup then modify fun s ↦ s.goodMm p m
  else do
    modify fun s ↦ s.mmFree m
    fail .noMem

/-- `copy_mm`, when it does not wait for the lock. -/
def copyMm (flags : BitVec 32) (p : ℕ) (mem : ForkMem) : KProg Unit := do
  match ← copyMmAlloc flags p mem with
  | .done => return ()
  | .dup m =>
    dupMmap m mem
    copyMmGood p m mem

/-- `get_pid`, `hash_proc` and `set_links`. -/
def forkLink (p : ℕ) : KProg Unit := do
  let s ← get
  match getPid (2 * maxPid) ⟨s.lastPid, s.nextSafe, s.procList.map fun q ↦ (s.proc q).pid⟩,
    (s.proc p).parent with
  | some r, some q =>
    modify fun s ↦ (({ s with lastPid := r.lastPid, nextSafe := r.nextSafe }.setProc p fun q ↦
      { q with pid := r.lastPid }).hashProc p).setLinks p q
  | _, _ => halt

/-- `copy_files` from `good_files_struct` on. -/
def goodFiles (p f : ℕ) : KProg Unit := modify fun s ↦
  (s.setFiles f fun files ↦ { files with count := files.count + 1 }).setProc p fun q ↦
    { q with filesp := some f }

/-- The descriptors of a table in state `FD_OPENED`. -/
def Kernel.openFds (s : Kernel) (f : ℕ) : List ℕ :=
  (List.range filesStructNentry).filter fun fd ↦ ((s.mem.files f).file fd).status = .opened

def copyFiles (flags : BitVec 32) (p : ℕ) (mem : ForkMem) : KProg (List Event) := do
  let s ← get
  match (s.proc s.current).filesp with
  | none => halt
  | some old =>
    if flags &&& cloneFs ≠ 0 then
      goodFiles p old
      return []
    else
      modify fun s ↦ s.growArena mem.files
      match mem.files.addr with
      | none => fail .noMem
      | some f =>
        modify fun s ↦ s.filesCreate f mem.filesPage
        assert (0 < (s.mem.files old).count)
        modify fun s ↦ s.dupFiles f old
        goodFiles p f
        return (s.openFds old).map (.openFd f)

/-- `do_fork` from `copy_files` on. The error path frees the process structure, and the call does
not fail: `ret` has been the number of the process since `wakeup_proc`. -/
def forkFiles (flags : BitVec 32) (p : ℕ) (mem : ForkMem) : KProg (List Event) := do
  match ← (copyFiles flags p mem).attempt with
  | .ok events => return events
  | .error _ =>
    badForkCleanupKstack p
    return []

/-- Where `copy_files` succeeds, nothing is left to undo. -/
theorem forkFiles_sat {flags : BitVec 32} {p : ℕ} {mem : ForkMem} {s : Kernel}
    {Q : List Event → Kernel → Prop} {E : Errno → Kernel → Prop}
    (h : ((copyFiles flags p mem).run s).Sat Q fun _ _ ↦ False) :
    ((forkFiles flags p mem).run s).Sat Q E := by
  rw [forkFiles]
  cases hrun : (copyFiles flags p mem).run s with
  | ok events t =>
    rw [hrun] at h
    rw [bind_of_ok (attempt_of_ok hrun)]
    exact h
  | error e t =>
    rw [hrun] at h
    exact h.elim
  | panic =>
    rw [bind_of_panic (attempt_of_panic hrun)]
    trivial

/-- `do_fork`, when it does not wait for the lock of the address space. -/
def doFork (flags : BitVec 32) (mem : ForkMem) : KProg ℕ := do
  let p ← forkAlloc mem
  (copyMm flags p mem).onError (badForkCleanupKstack p)
  forkLink p
  wakeupProc p
  let s ← get
  let _ ← forkFiles flags p mem
  return (s.proc p).pid

/-! ## Open files -/

def getFdArray : KProg ℕ := do
  let s ← get
  match (s.proc s.current).filesp with
  | none => halt
  | some f =>
    assert (0 < (s.mem.files f).count)
    return f

/-- The entry that `fd_array_alloc` takes: the first free one, or a given one. -/
def Kernel.freeFd (s : Kernel) (f : ℕ) : Option ℕ → Except Errno ℕ
  | none =>
    match (List.range filesStructNentry).find? fun fd ↦
        ((s.mem.files f).file fd).status = .none with
    | none => .error .maxOpen
    | some fd => .ok fd
  | some fd =>
    if fd < filesStructNentry then
      if ((s.mem.files f).file fd).status = .none then .ok fd else .error .busy
    else .error .inval

def fdArrayAlloc (fd : Option ℕ) : KProg (ℕ × ℕ) := do
  let f ← getFdArray
  let s ← get
  match s.freeFd f fd with
  | .error e => fail e
  | .ok fd =>
    assert (((s.mem.files f).file fd).openCount = 0)
    modify fun s ↦ s.setFile f fd fun file ↦ { file with status := .init, node := 0 }
    return (f, fd)

def fd2file (fd : ℕ) : KProg ℕ := do
  if fd < filesStructNentry then
    let f ← getFdArray
    let s ← get
    if ((s.mem.files f).file fd).status = .opened then return f else fail .inval
  else
    fail .inval

def fdArrayOpen (f fd node : ℕ) : KProg Unit := do
  let s ← get
  assert (((s.mem.files f).file fd).status = .init)
  modify fun s ↦ s.setFile f fd fun file ↦
    { status := .opened, openCount := file.openCount + 1, node := node }

/-- `fd_array_free` of an entry in state `FD_INIT`. -/
def fdArrayFree (f fd : ℕ) : KProg Unit :=
  modify fun s ↦ s.setFile f fd fun file ↦ { file with status := .none }

/-- `file_open`, up to `vfs_open`. -/
def fileOpen (result : Except Errno ℕ) : KProg (List Event) := do
  let (f, fd) ← fdArrayAlloc none
  modify fun s ↦ s.push [.locks, .openedFd f fd result]
  return []

/-- `file_open` behind `vfs_open`. -/
def openedFd (f fd : ℕ) (result : Except Errno ℕ) : KProg (List Event) := do
  match result with
  | .error e =>
    fdArrayFree f fd
    fail e
  | .ok node =>
    fdArrayOpen f fd node
    return [.openFd f fd]

/-- What `file_read` and its kin do before they call the inode: `fd2file` and `fd_array_acquire`. -/
def fileUse (fd : ℕ) : KProg (List Event) := do
  let f ← fd2file fd
  modify fun s ↦ (s.setFile f fd fun file ↦ { file with openCount := file.openCount + 1 }).push
    [.locks, .releaseFd f fd]
  return []

/-- A reference to an entry is given up; with the last one `fd_array_free` closes the inode. -/
def fopenCountDec (f fd : ℕ) : KProg (List Event) := do
  modify fun s ↦ s.setFile f fd fun file ↦ { file with openCount := file.openCount - 1 }
  let s ← get
  if ((s.mem.files f).file fd).openCount = 0 then
    assert (((s.mem.files f).file fd).status = .closed)
    modify fun s ↦ s.push [.locks, .freeFd f fd]
    return [.closeFd f fd]
  else
    return []

def fdArrayRelease (f fd : ℕ) : KProg (List Event) := do
  let s ← get
  assert (((s.mem.files f).file fd).status = .opened ∨ ((s.mem.files f).file fd).status = .closed)
  assert (0 < ((s.mem.files f).file fd).openCount)
  fopenCountDec f fd

/-- `fd_array_close`, up to the call of `vfs_close`. -/
def fdArrayClose (f fd : ℕ) : KProg (List Event) := do
  let s ← get
  assert (((s.mem.files f).file fd).status = .opened)
  assert (0 < ((s.mem.files f).file fd).openCount)
  modify fun s ↦ s.setFile f fd fun file ↦ { file with status := .closed }
  fopenCountDec f fd

def fileClose (fd : ℕ) : KProg (List Event) := do
  let f ← fd2file fd
  fdArrayClose f fd

def fileDup (fd1 : ℕ) (fd2 : Option ℕ) : KProg (List Event) := do
  let _ ← fd2file fd1
  let (f, fd) ← fdArrayAlloc fd2
  let s ← get
  fdArrayOpen f fd ((s.mem.files f).file fd1).node
  return [.openFd f fd]

/-! ## do_exit -/

/-- Dropping the address space, in `do_exit` and in `do_execve`. -/
def dropMm : KProg (List Event) := do
  let s ← get
  match (s.proc s.current).mm with
  | none => return []
  | some m =>
    modify fun s ↦ s.mmCountAdd m (-1)
    let t ← get
    modify fun s ↦ if (t.mem.mm m).count = 0 then s.mmFree m else s
    modify fun s ↦ s.setProc s.current fun q ↦ { q with mm := none }
    return if (t.mem.mm m).count = 0 then [.freeMm m] else []

/-- The call of `do_exit` as a list of sections. -/
def doExit (code : ℤ) : List Section := [.exit code]

/-- `do_exit` up to `put_files`. -/
def exitMm (code : ℤ) : KProg (List Event) := do
  let s ← get
  assert (s.current ≠ s.idleproc)
  assert (s.current ≠ s.initproc)
  let events ← dropMm
  modify fun t ↦ t.push
    (if (s.proc s.current).mm ≠ none then [.exitFiles, .exitZombie code] else [.exitZombie code])
  return events

def putFiles : KProg (List Event) := do
  let s ← get
  match (s.proc s.current).filesp with
  | none => return []
  | some f =>
    modify fun s ↦ s.setFiles f fun files ↦ { files with count := files.count - 1 }
    modify fun s ↦ s.push (if (s.mem.files f).count = 0 then
      .locks :: (List.range filesStructNentry).map (.destroyFd f) ++ [.freeFiles f] else [])
    return [.putFiles s.current f]

/-- One turn of the loop of `files_destroy`. -/
def destroyFd (f fd : ℕ) : KProg (List Event) := do
  let s ← get
  modify fun t ↦ t.push (if ((s.mem.files f).file fd).status = .opened then
    [.closeFd f fd, .noneFd f fd] else [.noneFd f fd])
  return []

/-- `wakeup_proc` under a condition. -/
def wakeupIf (c : Prop) [Decidable c] (p : ℕ) : KProg Unit := if c then wakeupProc p else return ()

/-- What the first assignments and the critical section of `do_exit` do for one child: it becomes a
child of `initproc`, which is woken if the child is a zombie. -/
def reparent (p : ℕ) : KProg Unit := do
  let s ← get
  modify fun s ↦ (s.setProc s.current fun q ↦ { q with cptr := (s.proc p).optr }).adopt p s.initproc
  modify fun s ↦ s.setProc p fun q ↦ { q with parent := some s.initproc }
  wakeupIf ((s.proc p).state = .zombie ∧ (s.proc s.initproc).waitState = wtChild) s.initproc

/-- The loop of `do_exit` over the children of the current process. -/
def reparentLoop : ℕ → KProg Unit
  | 0 => return ()
  | fuel + 1 => do
    let s ← get
    match (s.proc s.current).cptr with
    | none => return ()
    | some p =>
      reparent p
      reparentLoop fuel

/-- `PROC_ZOMBIE`. -/
def exitZombie (code : ℤ) : KProg (List Event) := do
  let s ← get
  modify fun s ↦ (s.setProc s.current fun q ↦ { q with state := .zombie, exitCode := code }).push
    [.exitTell, .schedule, .exited]
  return [.zombie s.current]

/-- The critical section of `do_exit`. A process has no more children than there are processes. -/
def exitTell : KProg (List Event) := do
  let s ← get
  match (s.proc s.current).parent with
  | none => halt
  | some q =>
    wakeupIf ((s.proc q).waitState = wtChild) q
    reparentLoop s.live.card
    return []

/-! ## do_wait -/

/-- What `do_wait` finds when it looks for a child. -/
inductive WaitScan
  | none
  | waiting
  | found (c : ℕ)
  deriving DecidableEq, Repr

/-- `do_wait` from `repeat` on, up to the branch on `haskid`. -/
def Kernel.waitTarget (s : Kernel) (pid : ℕ) : WaitScan :=
  if pid ≠ 0 then
    match s.findProc pid with
    | some c =>
      if (s.proc c).parent = some s.current then
        if (s.proc c).state = .zombie then .found c else .waiting
      else .none
    | none => .none
  else
    match s.firstZombie s.live.card (s.proc s.current).cptr with
    | some c => .found c
    | none => if (s.proc s.current).cptr = none then .none else .waiting

/-- `do_wait` from `found` on. -/
def waitFound (c : ℕ) : KProg (List Event) := do
  let s ← get
  assert (c ≠ s.idleproc ∧ c ≠ s.initproc)
  modify fun s ↦ (s.unhashProc c).removeLinks c
  modify fun s ↦ (s.putKstack c).kfreeProc c
  return [.deliver s.current c (s.proc c).exitCode]

/-- `do_wait` from `repeat` on, up to the assignment of `PROC_SLEEPING`. -/
def waitScan (pid : ℕ) : KProg (List Event) := do
  let s ← get
  match s.waitTarget pid with
  | .none => fail .badProc
  | .found c => waitFound c
  | .waiting =>
    modify fun s ↦ (s.setProc s.current fun q ↦ { q with state := .sleeping }).push [.waitSleep pid]
    return []

/-- The assignment of `WT_CHILD`. -/
def waitSleep (pid : ℕ) : KProg (List Event) := do
  modify fun s ↦ (s.setProc s.current fun q ↦ { q with waitState := wtChild }).push
    [.schedule, .waitRet pid]
  return []

/-- `do_wait` after its call of `schedule`. -/
def waitRet (pid : ℕ) : KProg (List Event) := do
  let s ← get
  modify fun t ↦ t.push
    (if (s.proc s.current).exiting then doExit (-Errno.killed.code) else [.waitScan pid])
  return []

/-! ## do_kill -/

def doKill (pid : ℕ) : KProg (List Event) := do
  let s ← get
  match s.findProc pid with
  | none => fail .inval
  | some p =>
    if (s.proc p).exiting then
      fail .killed
    else
      modify fun s ↦ s.setProc p fun q ↦ { q with exiting := true }
      wakeupIf ((s.proc p).waitState &&& wtInterrupted ≠ 0) p
      return []

/-! ## do_execve -/

/-- The call of `do_execve` as a list of sections. -/
def doExecve (mem : ExecMem) : List Section := [.locks, .execArgs mem]

/-- `do_execve` up to `sysfile_open`: the arguments are copied, and `files_closeall` closes all
descriptors but the first two. -/
def execArgs (mem : ExecMem) : KProg (List Event) := do
  match mem.args with
  | .error e => fail e
  | .ok () =>
    let s ← get
    match (s.proc s.current).filesp with
    | none => halt
    | some f =>
      assert (0 < (s.mem.files f).count)
      modify fun s ↦ s.push ((List.range' 2 (filesStructNentry - 2)).map (.closeallFd f) ++
        [.locks, .execPath mem])
      return []

/-- One turn of the loop of `files_closeall`. -/
def closeallFd (f fd : ℕ) : KProg (List Event) := do
  let s ← get
  modify fun t ↦ t.push
    (if ((s.mem.files f).file fd).status = .opened then [.closeFd f fd] else [])
  return []

/-- `sysfile_open` in `do_execve`, up to `vfs_open`. -/
def execPath (mem : ExecMem) : KProg (List Event) := do
  match ← (fdArrayAlloc none).attempt with
  | .error e => modify fun s ↦ s.push (doExit (-e.code))
  | .ok (f, fd) => modify fun s ↦ s.push [.locks, .execOpen f fd mem]
  return []

/-- `do_execve` from the result of `vfs_open` to the call of `load_icode`. -/
def execOpen (f fd : ℕ) (mem : ExecMem) : KProg (List Event) := do
  match mem.opened with
  | .error e =>
    fdArrayFree f fd
    modify fun s ↦ s.push (doExit (-e.code))
    return []
  | .ok node =>
    fdArrayOpen f fd node
    let events ← dropMm
    modify fun s ↦ s.push [.execLoad fd mem]
    return .openFd f fd :: events

/-- `load_icode`, up to the first `load_icode_read`. -/
def execLoad (fd : ℕ) (mem : ExecMem) : KProg (List Event) := do
  let s ← get
  assert ((s.proc s.current).mm = none)
  modify fun s ↦ s.growArena mem.mm
  match mem.mm.addr, mem.pgdir with
  | some m, some pgdir =>
    modify fun s ↦ (s.mmCreate m pgdir).push
      (.reads fd :: (if mem.closed then [.fileClose fd] else []) ++ [.execInstall m mem])
    return []
  | _, _ =>
    modify fun s ↦ s.push (doExit (-Errno.noMem.code))
    return []

/-- `load_icode` behind `sysfile_close`: the new address space is installed, or freed. -/
def execInstall (m : ℕ) (mem : ExecMem) : KProg (List Event) := do
  modify fun s ↦ s.mmPages m mem.pages mem.lost
  match mem.load with
  | .ok () =>
    modify fun s ↦ s.goodMm s.current m
    return []
  | .error e =>
    modify fun s ↦ (s.mmFree m).push (doExit (-e.code))
    return [.freeMm m]

end Ucore
