import Mathlib.Logic.Relation
import Ucore.Proc.Process

/-!
# Runs of the kernel

A step is one section of the process on the processor, the start of a system call or of kernel code
that is not part of one, or an interrupt of the clock, which may come between any two sections.
-/

namespace Ucore

open Prog

/-! ## Sections -/

/-- `do_fork` up to `lock_mm`, or to the end of `copy_mm` if it does not get there. -/
def forkBegin (flags : BitVec 32) (mem : ForkMem) : KProg (List Event) := do
  let p ← forkAlloc mem
  match ← (copyMmAlloc flags p mem).onError (badForkCleanupKstack p) with
  | .done =>
    modify fun s ↦ s.push [.forkLink flags p mem]
    return []
  | .dup m =>
    modify fun s ↦ s.push [.locks, .forkDup flags p m mem]
    return []

/-- Run a section of the current process. -/
def Section.exec : Section → KProg (List Event)
  | .schedule => do
    modify Kernel.schedule
    return []
  | .up k => Ucore.up k
  | .down k => Ucore.down k
  | .downRet k => Ucore.downRet k
  | .tryDown k => Ucore.tryDown k
  | .locks => return []
  | .sleep time => doSleep time
  | .sleepRet => Ucore.sleepRet
  | .waitScan pid => Ucore.waitScan pid
  | .waitSleep pid => Ucore.waitSleep pid
  | .waitRet pid => Ucore.waitRet pid
  | .kill pid => doKill pid
  | .setPriority priority => do
    modify fun s ↦ s.setProc s.current fun q ↦
      { q with priority := if priority = 0 then 1 else priority }
    return []
  | .fork flags mem => forkBegin flags mem
  | .forkDup flags p m mem => do
    dupMmap m mem
    modify fun s ↦ s.push [.locks, .forkMm flags p m mem]
    return []
  | .forkMm flags p m mem => do
    (copyMmGood p m mem).onError (badForkCleanupKstack p)
    modify fun s ↦ s.push [.forkLink flags p mem]
    return []
  | .forkLink flags p mem => do
    Ucore.forkLink p
    modify fun s ↦ s.push [.forkWake flags p mem]
    return []
  | .forkWake flags p mem => do
    wakeupProc p
    modify fun s ↦ s.push [.forkFiles flags p mem]
    return []
  | .forkFiles flags p mem => Ucore.forkFiles flags p mem
  | .execArgs mem => Ucore.execArgs mem
  | .closeallFd f fd => Ucore.closeallFd f fd
  | .execPath mem => Ucore.execPath mem
  | .execOpen f fd mem => Ucore.execOpen f fd mem
  | .execLoad fd mem => Ucore.execLoad fd mem
  | .reads _ => return []
  | .execInstall m mem => Ucore.execInstall m mem
  | .exit code => exitMm code
  | .exitFiles => Ucore.putFiles
  | .destroyFd f fd => Ucore.destroyFd f fd
  | .closeFd f fd => fdArrayClose f fd
  | .freeFd f fd => do
    fdArrayFree f fd
    return []
  | .noneFd f fd => do
    let s ← get
    assert (((s.mem.files f).file fd).status = .none)
    return []
  | .freeFiles f => do
    modify fun s ↦ s.filesFree f
    return []
  | .exitZombie code => Ucore.exitZombie code
  | .exitTell => Ucore.exitTell
  | .exited => halt
  | .fileOpen result => Ucore.fileOpen result
  | .openedFd f fd result => Ucore.openedFd f fd result
  | .fileUse fd => Ucore.fileUse fd
  | .releaseFd f fd => fdArrayRelease f fd
  | .fileClose fd => Ucore.fileClose fd
  | .fileDup fd1 fd2 => Ucore.fileDup fd1 fd2

/-- What an allocation answers is not in use. -/
def Section.Fresh (s : Kernel) : Section → Prop
  | .fork _ mem => (∀ p, mem.proc.addr = some p → p ∉ s.live) ∧
      (∀ m, mem.mm.addr = some m → m ∉ s.mem.mmLive) ∧
      ∀ page, mem.pgdir = some page → ∀ m ∈ s.mem.mmLive, (s.mem.mm m).pgdir ≠ page
  | .forkFiles _ _ mem => ∀ f, mem.files.addr = some f → f ∉ s.mem.filesLive
  | .execLoad _ mem => (∀ m, mem.mm.addr = some m → m ∉ s.mem.mmLive) ∧
      ∀ page, mem.pgdir = some page → ∀ m ∈ s.mem.mmLive, (s.mem.mm m).pgdir ≠ page
  | _ => True

/-! ## Calls -/

/-- What a process may start in kernel code or by a system call. -/
inductive Call
  /-- `schedule`, also on the way back to user mode when `need_resched` is set. -/
  | schedule
  | up (k : ℕ)
  | down (k : ℕ)
  | tryDown (k : ℕ)
  | sleep (time : BitVec 32)
  | wait (pid : ℕ)
  | kill (pid : ℕ)
  | setPriority (priority : BitVec 32)
  | fork (flags : BitVec 32) (mem : ForkMem)
  | exec (mem : ExecMem)
  /-- `do_exit`, also on the way back to user mode when `PF_EXITING` is set. -/
  | exit (code : ℤ)
  | fileOpen (result : Except Errno ℕ)
  /-- `file_read`, `file_write`, `file_seek`, `file_fstat`, `file_fsync` and `file_getdirentry`. -/
  | fileUse (fd : ℕ)
  | fileClose (fd : ℕ)
  | fileDup (fd1 : ℕ) (fd2 : Option ℕ)

/-- The sections of a call. -/
def Call.code : Call → List Section
  | .schedule => [.schedule]
  | .up k => [.up k]
  | .down k => [.down k]
  | .tryDown k => [.tryDown k]
  | .sleep time => [.sleep time]
  | .wait pid => [.waitScan pid]
  | .kill pid => [.kill pid]
  | .setPriority priority => [.setPriority priority]
  | .fork flags mem => [.fork flags mem]
  | .exec mem => doExecve mem
  | .exit code => doExit code
  | .fileOpen result => [.fileOpen result]
  | .fileUse fd => [.fileUse fd]
  | .fileClose fd => [.fileClose fd]
  | .fileDup fd1 fd2 => [.fileDup fd1 fd2]

/-- The operations on semaphores. -/
inductive Section.IsLock : Section → Prop
  | up (k : ℕ) : IsLock (.up k)
  | down (k : ℕ) : IsLock (.down k)
  | tryDown (k : ℕ) : IsLock (.tryDown k)

/-- A step of the kernel, with what an observer sees of it. Only sections that satisfy `C` are run.
The idle process does nothing but call `schedule`. -/
inductive KStep (C : Kernel → Section → Prop) : Kernel → List Event → Kernel → Prop
  /-- An interrupt of the clock. -/
  | interrupt {s t : Kernel} (h : timerInterrupt.run s = .ok () t) : KStep C s [] t
  /-- The current process starts a call. -/
  | call {s : Kernel} (c : Call) (h : s.code s.current = [])
      (hidle : s.current = s.idleproc → c = .schedule) :
      KStep C s [] (s.setCode s.current c.code)
  /-- File system or memory management code calls a semaphore operation. -/
  | lock {s : Kernel} {i : Section} {rest : List Section}
      (h : s.code s.current = .locks :: rest) (hi : i.IsLock) :
      KStep C s [] (s.setCode s.current (i :: .locks :: rest))
  /-- `load_icode` reads from the program file. -/
  | read {s : Kernel} {fd : ℕ} {rest : List Section}
      (h : s.code s.current = .reads fd :: rest) :
      KStep C s [] (s.setCode s.current (.fileUse fd :: .reads fd :: rest))
  /-- The current process runs its next section. -/
  | run {s t : Kernel} {i : Section} {rest : List Section} {events : List Event}
      (h : s.code s.current = i :: rest) (hC : C s i) (hfresh : i.Fresh s)
      (hrun : i.exec.run (s.setCode s.current rest) = .ok events t) : KStep C s events t
  /-- The current process runs its next section, in which the call fails. -/
  | fail {s t : Kernel} {i : Section} {rest : List Section} {e : Errno}
      (h : s.code s.current = i :: rest) (hC : C s i) (hfresh : i.Fresh s)
      (hrun : i.exec.run (s.setCode s.current rest) = .error e t) : KStep C s [] t

/-- A run, with what an observer sees of it. -/
inductive KRun (C : Kernel → Section → Prop) : Kernel → List Event → Kernel → Prop
  | refl (s : Kernel) : KRun C s [] s
  | tail {s t u : Kernel} {es fs : List Event} (h : KRun C s es t) (hstep : KStep C t fs u) :
      KRun C s (es ++ fs) u

theorem KRun.head {C : Kernel → Section → Prop} {s t u : Kernel}
    {es fs : List Event} (hstep : KStep C s es t) (h : KRun C t fs u) : KRun C s (es ++ fs) u := by
  induction h with
  | refl =>
    rw [List.append_nil]
    exact (KRun.refl s).tail hstep
  | tail _ hlast ih =>
    rw [← List.append_assoc]
    exact ih.tail hlast

/-! ## Boot -/

/-- The kernel before `proc_init`. -/
def Kernel.start (value : ℕ → ℤ) (mem : Memory) : Kernel where
  proc _ := .blank
  live := ∅
  current := 0
  idleproc := 0
  initproc := 0
  procList := []
  hashList _ := []
  nrProcess := 0
  lastPid := maxPid
  nextSafe := maxPid
  rq := ⟨.nil, [], 0⟩
  timers := []
  sems k := .init (value k)
  mem := mem
  code _ := []
  wakeupFlags _ := 0

/-- `proc_init`, with the idle process at address `idle` and its open-file table at `f`. -/
def procInit (idle f page : ℕ) (mem : ForkMem) : KProg Unit := do
  modify fun s ↦ (s.allocProc idle).setProc idle fun q ↦
    { q with pid := 0, state := .runnable, needResched := true, filesp := some f }
  modify fun s ↦ (s.filesCreate f page).setFiles f fun files ↦
    { files with count := files.count + 1 }
  modify fun s ↦ { s with idleproc := idle, current := idle, nrProcess := s.nrProcess + 1 }
  let pid ← doFork cloneVm mem
  let s ← get
  match s.findProc pid with
  | none => halt
  | some p =>
    modify fun s ↦ { s with initproc := p }
    assert ((s.proc p).pid = 1)

/-- The state `proc_init` leaves, with the semaphores initialised to `value`. There is memory for
the open-file table of the first process. -/
def Booted (value : ℕ → ℤ) (s : Kernel) : Prop :=
  ∃ idle f page mem memory, (∀ p, mem.proc.addr = some p → p ≠ idle) ∧
    (∃ g, mem.files.addr = some g ∧ g ≠ f) ∧
    (procInit idle f page mem).run (.start value memory) = .ok () s

/-! ## Scripts

Runs can be computed from a list of what happens in them. -/

/-- What happens next. -/
inductive Move
  | interrupt
  | call (c : Call)
  | lock (i : Section)
  | read
  | run

instance Section.decidableIsLock (i : Section) : Decidable i.IsLock :=
  match i with
  | .up k => isTrue (.up k)
  | .down k => isTrue (.down k)
  | .tryDown k => isTrue (.tryDown k)
  | .schedule | .downRet _ | .locks | .sleep _ | .sleepRet | .waitScan _ | .waitSleep _ | .waitRet _
  | .kill _ | .setPriority _ | .fork _ _ | .forkDup _ _ _ _ | .forkMm _ _ _ _ | .forkLink _ _ _
  | .forkWake _ _ _ | .forkFiles _ _ _ | .execArgs _ | .closeallFd _ _ | .execPath _
  | .execOpen _ _ _ | .execLoad _ _ | .reads _ | .execInstall _ _ | .exit _ | .exitFiles
  | .destroyFd _ _ | .closeFd _ _ | .freeFd _ _ | .noneFd _ _ | .freeFiles _ | .exitZombie _
  | .exitTell | .exited | .fileOpen _ | .openedFd _ _ _ | .fileUse _ | .releaseFd _ _
  | .fileClose _ | .fileDup _ _ => isFalse (by rintro ⟨⟩)

/-- The idle process calls nothing but `schedule`. -/
def Call.isSchedule : Call → Bool
  | .schedule => true
  | _ => false

theorem Call.eq_of_isSchedule {c : Call} (h : c.isSchedule = true) : c = .schedule := by
  cases c <;> first | rfl | cases h

/-- A property of what an allocation answers. -/
def decidableForallAddr (o : Option ℕ) (P : ℕ → Prop) [DecidablePred P] :
    Decidable (∀ p, o = some p → P p) :=
  match o with
  | none => isTrue fun _ h ↦ absurd h.symm (Option.some_ne_none _)
  | some p => decidable_of_iff (P p) ⟨fun h _ hq ↦ Option.some.inj hq ▸ h, fun h ↦ h p rfl⟩

instance Section.decidableFresh (s : Kernel) (i : Section) : Decidable (i.Fresh s) :=
  match i with
  | .fork _ mem =>
    haveI := decidableForallAddr mem.proc.addr fun p ↦ p ∉ s.live
    haveI := decidableForallAddr mem.mm.addr fun m ↦ m ∉ s.mem.mmLive
    haveI := decidableForallAddr mem.pgdir fun page ↦ ∀ m ∈ s.mem.mmLive, (s.mem.mm m).pgdir ≠ page
    inferInstanceAs (Decidable (_ ∧ _ ∧ _))
  | .forkFiles _ _ mem => decidableForallAddr mem.files.addr fun f ↦ f ∉ s.mem.filesLive
  | .execLoad _ mem =>
    haveI := decidableForallAddr mem.mm.addr fun m ↦ m ∉ s.mem.mmLive
    haveI := decidableForallAddr mem.pgdir fun page ↦ ∀ m ∈ s.mem.mmLive, (s.mem.mm m).pgdir ≠ page
    inferInstanceAs (Decidable (_ ∧ _))
  | .schedule | .up _ | .down _ | .tryDown _ | .downRet _ | .locks | .sleep _ | .sleepRet
  | .waitScan _ | .waitSleep _ | .waitRet _ | .kill _ | .setPriority _ | .forkDup _ _ _ _
  | .forkMm _ _ _ _ | .forkLink _ _ _ | .forkWake _ _ _ | .execArgs _ | .closeallFd _ _
  | .execPath _ | .execOpen _ _ _ | .reads _ | .execInstall _ _ | .exit _ | .exitFiles
  | .destroyFd _ _ | .closeFd _ _ | .freeFd _ _ | .noneFd _ _ | .freeFiles _ | .exitZombie _
  | .exitTell | .exited | .fileOpen _ | .openedFd _ _ _ | .fileUse _ | .releaseFd _ _
  | .fileClose _ | .fileDup _ _ => isTrue trivial

section Script

variable (C : Kernel → Section → Prop) [∀ s i, Decidable (C s i)]

/-- The step in which this happens, if it can. -/
def Move.step (s : Kernel) : Move → Option (List Event × Kernel)
  | .interrupt =>
    match timerInterrupt.run s with
    | .ok _ t => some ([], t)
    | _ => none
  | .call c =>
    if s.code s.current = [] ∧ (s.current = s.idleproc → c.isSchedule = true) then
      some ([], s.setCode s.current c.code)
    else none
  | .lock i =>
    match s.code s.current with
    | .locks :: rest =>
      if i.IsLock then some ([], s.setCode s.current (i :: .locks :: rest)) else none
    | _ => none
  | .read =>
    match s.code s.current with
    | .reads fd :: rest => some ([], s.setCode s.current (.fileUse fd :: .reads fd :: rest))
    | _ => none
  | .run =>
    match s.code s.current with
    | [] => none
    | i :: rest =>
      if C s i ∧ i.Fresh s then
        match i.exec.run (s.setCode s.current rest) with
        | .ok events t => some (events, t)
        | .error _ t => some ([], t)
        | .panic => none
      else none

/-- The run in which all this happens, if it can. -/
def follow : List Move → Kernel → Option (List Event × Kernel)
  | [], s => some ([], s)
  | move :: moves, s => do
    let (es, t) ← move.step C s
    let (fs, u) ← follow moves t
    return (es ++ fs, u)

variable {C}

theorem Move.kstep {s t : Kernel} {move : Move} {es : List Event}
    (h : move.step C s = some (es, t)) : KStep C s es t := by
  cases move with
  | interrupt =>
    rw [Move.step] at h
    cases hrun : timerInterrupt.run s with
    | ok _ u =>
      rw [hrun] at h
      cases h
      exact .interrupt hrun
    | error _ _ =>
      rw [hrun] at h
      cases h
    | panic =>
      rw [hrun] at h
      cases h
  | call c =>
    rw [Move.step] at h
    split_ifs at h with hcond
    cases h
    exact .call c hcond.1 fun hidle ↦ Call.eq_of_isSchedule (hcond.2 hidle)
  | lock i =>
    rw [Move.step] at h
    split at h
    · next rest hcode =>
      split_ifs at h with hi
      cases h
      exact .lock hcode hi
    · cases h
  | read =>
    rw [Move.step] at h
    split at h
    · next fd rest hcode =>
      cases h
      exact .read hcode
    · cases h
  | run =>
    rw [Move.step] at h
    split at h
    · cases h
    · next i rest hcode =>
      split_ifs at h with hcond
      cases hrun : i.exec.run (s.setCode s.current rest) with
      | ok events u =>
        rw [hrun] at h
        cases h
        exact .run hcode hcond.1 hcond.2 hrun
      | error e u =>
        rw [hrun] at h
        cases h
        exact .fail hcode hcond.1 hcond.2 hrun
      | panic =>
        rw [hrun] at h
        cases h

theorem follow_krun {moves : List Move} {s t : Kernel} {es : List Event}
    (h : follow C moves s = some (es, t)) : KRun C s es t := by
  induction moves generalizing s es with
  | nil =>
    obtain ⟨rfl, rfl⟩ := Prod.mk.inj (Option.some.inj h)
    exact .refl s
  | cons move moves ih =>
    rw [follow] at h
    obtain ⟨⟨es₁, u⟩, hmove, h⟩ := Option.bind_eq_some_iff.mp h
    obtain ⟨⟨es₂, v⟩, hmoves, h⟩ := Option.bind_eq_some_iff.mp h
    cases h
    exact (ih hmoves).head (Move.kstep hmove)

end Script

/-! ### A boot -/

/-- Every allocation of a call of `do_fork` succeeds. -/
def sampleFork (p m f : ℕ) : ForkMem where
  proc := ⟨some p, ∅⟩
  kstack := some (1000 + 2 * p)
  mm := ⟨some m, ∅⟩
  pgdir := some (2000 + m)
  dup := true
  dupPages := ∅
  dupLost := ∅
  files := ⟨some f, ∅⟩
  filesPage := 3000 + f

/-- Nothing is allocated. -/
def sampleMemory : Memory :=
  ⟨∅, fun _ ↦ ⟨0, 0, ∅⟩, ∅, fun _ ↦ ⟨0, 0, fun _ ↦ ⟨.none, 0, 0⟩⟩, ∅⟩

/-- The idle process is at address 1, `initproc` at 2, and every semaphore has this value. -/
def sampleBoot (value : ℕ → ℤ) : Outcome Errno Kernel Unit :=
  (procInit 1 1 1 (sampleFork 2 2 2)).run (.start value sampleMemory)

/-- A run in which all this happens after the boot. -/
def followBoot (C : Kernel → Section → Prop) [∀ s i, Decidable (C s i)]
    (boot : Outcome Errno Kernel Unit) (moves : List Move) : Option (List Event × Kernel) :=
  match boot with
  | .ok _ s => follow C moves s
  | _ => none

theorem followBoot_krun {C : Kernel → Section → Prop} [∀ s i, Decidable (C s i)] {value : ℕ → ℤ}
    {moves : List Move} {es : List Event} {t : Kernel}
    (h : followBoot C (sampleBoot value) moves = some (es, t)) :
    ∃ s, Booted value s ∧ KRun C s es t := by
  generalize hboot : sampleBoot value = boot at h
  cases boot with
  | ok _ s =>
    refine ⟨s, ⟨1, 1, 1, sampleFork 2 2 2, sampleMemory, fun p hp ↦ ?_, ⟨2, rfl, by decide⟩, hboot⟩,
      follow_krun h⟩
    rw [← Option.some.inj hp]
    decide
  | error _ _ => cases h
  | panic => cases h

end Ucore
