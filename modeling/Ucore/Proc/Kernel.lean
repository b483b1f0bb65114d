import Mathlib.Data.Finset.Basic
import Ucore.Errno
import Ucore.Lib.Prog
import Ucore.Lib.SkewHeap
import Ucore.Proc.Pid
import Ucore.Sched.Timer
import Ucore.Sync.Sem

/-!
# The state of the kernel

What `kern/process/proc.c`, `kern/schedule/sched.c` and `kern/sync/sem.c` work on. A process is
named by the address of its `proc_struct`, a `mm_struct` and a `files_struct` likewise. Freed memory
keeps its contents; `live` and its kin tell what is allocated.

There is one processor, and inside the kernel a process gives it up only by calling `schedule`. What
a process has still to do in the kernel is therefore a list of *sections*, the stretches of code
between two points at which an interrupt or another process can come in between, and the process on
the processor runs them from the front. A process with no section left is in user mode, or in kernel
code that is about to start something.
-/

namespace Ucore

/-! ## Processes -/

/-- `enum proc_state`. -/
inductive ProcState
  | uninit
  | sleeping
  | runnable
  | zombie
  deriving DecidableEq, Repr

def wtInterrupted : BitVec 32 := 0x80000000

def wtChild : BitVec 32 := 0x00000001 ||| wtInterrupted

def wtKsem : BitVec 32 := 0x00000100

def wtTimer : BitVec 32 := 0x00000002 ||| wtInterrupted

def cloneVm : BitVec 32 := 0x00000100

def cloneFs : BitVec 32 := 0x00000800

/-- `struct proc_struct`. Of `flags` there is only `PF_EXITING`. The field `cr3` is `none` for
`boot_cr3`, else the page of a directory, and `kstack` is the first page of the kernel stack. -/
structure Proc where
  state : ProcState
  pid : ℕ
  kstack : Option ℕ
  needResched : Bool
  parent : Option ℕ
  mm : Option ℕ
  cr3 : Option ℕ
  exiting : Bool
  exitCode : ℤ
  waitState : BitVec 32
  cptr : Option ℕ
  yptr : Option ℕ
  optr : Option ℕ
  timeSlice : ℕ
  stride : BitVec 32
  priority : BitVec 32
  filesp : Option ℕ

/-- The fields as `alloc_proc` sets them; the pid is -1. -/
def Proc.blank : Proc where
  state := .uninit
  pid := 2 ^ 32 - 1
  kstack := none
  needResched := false
  parent := none
  mm := none
  cr3 := none
  exiting := false
  exitCode := 0
  waitState := 0
  cptr := none
  yptr := none
  optr := none
  timeSlice := 0
  stride := 0
  priority := 0
  filesp := none

/-! ## Memory -/

/-- A call of `kmalloc`: the address it answers, and the pages that the arena takes for it and does
not give back. -/
structure Kmalloc where
  addr : Option ℕ
  grown : Finset ℕ

/-- `struct mm_struct`, with the pages below its directory that `exit_mmap` gives back. -/
structure Mm where
  count : ℤ
  pgdir : ℕ
  pages : Finset ℕ

/-- The status of an entry of an open-file table. -/
inductive FdStatus
  | none
  | init
  | opened
  | closed
  deriving DecidableEq, Repr

/-- `struct file`. -/
structure File where
  status : FdStatus
  openCount : ℤ
  node : ℕ

def filesStructNentry : ℕ := 72

/-- `struct files_struct`, which has a page of its own. -/
structure Files where
  count : ℤ
  page : ℕ
  file : ℕ → File

/-- The free pages, the address spaces and the open-file tables. -/
structure Memory where
  freePages : Finset ℕ
  mm : ℕ → Mm
  mmLive : Finset ℕ
  files : ℕ → Files
  filesLive : Finset ℕ

/-- How the allocations inside a call of `do_fork` turn out. -/
structure ForkMem where
  /-- `kmalloc` of the process structure. -/
  proc : Kmalloc
  /-- `alloc_pages` for the kernel stack. -/
  kstack : Option ℕ
  /-- `kmalloc` in `mm_create`. -/
  mm : Kmalloc
  /-- `alloc_page` in `setup_pgdir`. -/
  pgdir : Option ℕ
  /-- Whether `dup_mmap` succeeds. -/
  dup : Bool
  /-- The pages `dup_mmap` takes that `exit_mmap` gives back. -/
  dupPages : Finset ℕ
  /-- The pages `dup_mmap` takes that `exit_mmap` does not give back. -/
  dupLost : Finset ℕ
  /-- `kmalloc` in `files_create`. -/
  files : Kmalloc
  /-- The page of the new open-file table. -/
  filesPage : ℕ

/-- How the steps of a call of `do_execve` turn out that can fail. -/
structure ExecMem where
  /-- The checks of the arguments and `copy_kargv`. -/
  args : Except Errno Unit
  /-- `vfs_open`, which answers an inode. -/
  opened : Except Errno ℕ
  /-- `kmalloc` in `mm_create`. -/
  mm : Kmalloc
  /-- `alloc_page` in `setup_pgdir`. -/
  pgdir : Option ℕ
  /-- Whether `load_icode` gets to `sysfile_close`. -/
  closed : Bool
  /-- The rest of `load_icode`. -/
  load : Except Errno Unit
  /-- The pages the new address space gets that `exit_mmap` gives back. -/
  pages : Finset ℕ
  /-- The other pages taken for it. -/
  lost : Finset ℕ

/-! ## Sections -/

/-- A stretch of kernel code. -/
inductive Section
  /-- `schedule`. -/
  | schedule
  /-- `up`. -/
  | up (k : ℕ)
  /-- `down`, up to its call of `schedule`. -/
  | down (k : ℕ)
  /-- `down`, from there on. -/
  | downRet (k : ℕ)
  /-- `try_down`. -/
  | tryDown (k : ℕ)
  /-- File system or memory management code, which calls `up` and `down` any number of times. -/
  | locks
  /-- `do_sleep`, up to its call of `schedule`. -/
  | sleep (time : BitVec 32)
  /-- `do_sleep`, from there on. -/
  | sleepRet
  /-- `do_wait` from `repeat`, up to the assignment of `PROC_SLEEPING`. -/
  | waitScan (pid : ℕ)
  /-- The assignment of `WT_CHILD`. -/
  | waitSleep (pid : ℕ)
  /-- `do_wait` after its call of `schedule`. -/
  | waitRet (pid : ℕ)
  /-- `do_kill`. -/
  | kill (pid : ℕ)
  /-- `lab6_set_priority`. -/
  | setPriority (priority : BitVec 32)
  /-- `do_fork`, up to `lock_mm` in `copy_mm`, or to the end of `copy_mm` if it does not get
  there. -/
  | fork (flags : BitVec 32) (mem : ForkMem)
  /-- `dup_mmap`. -/
  | forkDup (flags : BitVec 32) (p m : ℕ) (mem : ForkMem)
  /-- `copy_mm` after `unlock_mm`. -/
  | forkMm (flags : BitVec 32) (p m : ℕ) (mem : ForkMem)
  /-- `get_pid`, `hash_proc` and `set_links`. -/
  | forkLink (flags : BitVec 32) (p : ℕ) (mem : ForkMem)
  /-- `wakeup_proc`. -/
  | forkWake (flags : BitVec 32) (p : ℕ) (mem : ForkMem)
  /-- `copy_files`. -/
  | forkFiles (flags : BitVec 32) (p : ℕ) (mem : ForkMem)
  /-- `do_execve` after `lock_mm`. -/
  | execArgs (mem : ExecMem)
  /-- One turn of the loop of `files_closeall`. -/
  | closeallFd (f fd : ℕ)
  /-- `sysfile_open` in `do_execve`, up to `vfs_open`. -/
  | execPath (mem : ExecMem)
  /-- `do_execve` from the result of `vfs_open` to the call of `load_icode`. -/
  | execOpen (f fd : ℕ) (mem : ExecMem)
  /-- `load_icode`, up to the first `load_icode_read`. -/
  | execLoad (fd : ℕ) (mem : ExecMem)
  /-- The calls of `load_icode_read`. -/
  | reads (fd : ℕ)
  /-- `load_icode`, behind `sysfile_close`. -/
  | execInstall (m : ℕ) (mem : ExecMem)
  /-- `do_exit`, up to `put_files`. -/
  | exit (code : ℤ)
  /-- `put_files`. -/
  | exitFiles
  /-- One turn of the loop of `files_destroy`. -/
  | destroyFd (f fd : ℕ)
  /-- `fd_array_close`, up to the call of `vfs_close`. -/
  | closeFd (f fd : ℕ)
  /-- The end of `fd_array_free`. -/
  | freeFd (f fd : ℕ)
  /-- The assertion in the loop of `files_destroy`. -/
  | noneFd (f fd : ℕ)
  /-- The end of `files_destroy`. -/
  | freeFiles (f : ℕ)
  /-- The assignments of `PROC_ZOMBIE` and of the exit code. -/
  | exitZombie (code : ℤ)
  /-- The part of `do_exit` in which interrupts are disabled. -/
  | exitTell
  /-- Behind the last call of `schedule` in `do_exit`. -/
  | exited
  /-- `file_open`, up to `vfs_open`, and how that turns out. -/
  | fileOpen (result : Except Errno ℕ)
  /-- `file_open`, from there on. -/
  | openedFd (f fd : ℕ) (result : Except Errno ℕ)
  /-- The calls on an open descriptor, up to `fd_array_acquire`. -/
  | fileUse (fd : ℕ)
  /-- `fd_array_release`. -/
  | releaseFd (f fd : ℕ)
  /-- `file_close`. -/
  | fileClose (fd : ℕ)
  /-- `file_dup`. -/
  | fileDup (fd1 : ℕ) (fd2 : Option ℕ)

/-- What an observer sees of a run. -/
inductive Event
  /-- A call of `up` is complete. -/
  | up (k : ℕ)
  /-- Process `p` joins the wait queue of semaphore `k`. -/
  | enqueue (k p : ℕ)
  /-- `down` or `try_down` takes a unit. -/
  | take (k p : ℕ)
  /-- `up` hands a unit to the waiting process `p`. -/
  | hand (k p : ℕ)
  /-- `do_wait` of process `p` delivers the exit code of its child `c`. -/
  | deliver (p c : ℕ) (code : ℤ)
  /-- Process `p` becomes a zombie. -/
  | zombie (p : ℕ)
  /-- Process `p` gives up its reference to the table `f`. -/
  | putFiles (p f : ℕ)
  /-- The descriptor `fd` of the table `f` is opened. -/
  | openFd (f fd : ℕ)
  /-- The descriptor `fd` of the table `f` is closed. -/
  | closeFd (f fd : ℕ)
  /-- The address space `m` is freed. -/
  | freeMm (m : ℕ)
  deriving DecidableEq, Repr

/-! ## The kernel -/

/-- `struct run_queue`. -/
structure RunQueue where
  pool : SkewHeap ℕ
  runList : List ℕ
  procNum : ℕ

/-- The variables of the kernel. The wait entry of a process in `down` and its timer in `do_sleep`
are on its stack, so there is one of each at most; `wakeupFlags` is a field of the former. -/
structure Kernel where
  proc : ℕ → Proc
  live : Finset ℕ
  current : ℕ
  idleproc : ℕ
  initproc : ℕ
  procList : List ℕ
  hashList : ℕ → List ℕ
  nrProcess : ℕ
  lastPid : ℕ
  nextSafe : ℕ
  rq : RunQueue
  timers : List Timer
  sems : ℕ → Sem ℕ
  mem : Memory
  code : ℕ → List Section
  wakeupFlags : ℕ → BitVec 32

namespace Kernel

variable (s : Kernel)

/-- Change the fields of a process. -/
def setProc (p : ℕ) (f : Proc → Proc) : Kernel :=
  { s with proc := Function.update s.proc p (f (s.proc p)) }

/-- Replace what a process has still to do. -/
def setCode (p : ℕ) (l : List Section) : Kernel := { s with code := Function.update s.code p l }

@[simp] theorem setProc_self (p : ℕ) (f : Proc → Proc) :
    (s.setProc p f).proc p = f (s.proc p) := Function.update_self ..

theorem setProc_of_ne {p q : ℕ} (h : q ≠ p) (f : Proc → Proc) :
    (s.setProc p f).proc q = s.proc q := Function.update_of_ne h ..

theorem setProc_setProc (p : ℕ) (f g : Proc → Proc) :
    (s.setProc p f).setProc p g = s.setProc p fun q ↦ g (f q) := by
  simp only [setProc, Function.update_self, Function.update_idem]

@[simp] theorem setCode_self (p : ℕ) (l : List Section) : (s.setCode p l).code p = l :=
  Function.update_self ..

theorem setCode_of_ne {p q : ℕ} (h : q ≠ p) (l : List Section) :
    (s.setCode p l).code q = s.code q := Function.update_of_ne h ..

/-- Put sections in front of what the current process has still to do. -/
def push (l : List Section) : Kernel := s.setCode s.current (l ++ s.code s.current)

/-- Replace the run queue. -/
def setRq (rq : RunQueue) : Kernel := { s with rq := rq }

/-- Give the processor to another process. -/
def setCurrent (p : ℕ) (rq : RunQueue) : Kernel := { s with current := p, rq := rq }

/-- Replace a semaphore. -/
def setSem (k : ℕ) (sem : Sem ℕ) : Kernel := { s with sems := Function.update s.sems k sem }

/-- Set `wakeup_flags` of the wait entry of a process. -/
def setFlags (p : ℕ) (flags : BitVec 32) : Kernel :=
  { s with wakeupFlags := Function.update s.wakeupFlags p flags }

/-- Change the memory. -/
def setMem (f : Memory → Memory) : Kernel := { s with mem := f s.mem }

/-- `alloc_proc`, when the structure is at address `p`. -/
def allocProc (p : ℕ) : Kernel :=
  { s with
    proc := Function.update s.proc p .blank
    live := insert p s.live
    code := Function.update s.code p [] }

/-- `kfree` of a process structure. -/
def kfreeProc (p : ℕ) : Kernel := { s with live := s.live.erase p }

end Kernel

/-- A routine of the kernel. -/
abbrev KProg (α : Type) := Prog Errno Kernel α

end Ucore
