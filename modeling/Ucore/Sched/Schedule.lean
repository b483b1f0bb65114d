import Ucore.Proc.Kernel

/-!
# The scheduler, semaphores and timers

`kern/schedule/default_sched_stride.c`, `kern/schedule/sched.c`, `kern/sync/sem.c` and `do_sleep` on
the state of the kernel. The run queue keeps its members in a skew heap and in a list.
-/

namespace Ucore

open Prog

namespace Kernel

variable (s : Kernel)

/-! ## The run queue -/

/-- `BIG_STRIDE / priority`. A new process has the priority 0, for which the `divu` of the processor
answers with all bits set. -/
def strideStep (priority : BitVec 32) : BitVec 32 :=
  if priority = 0 then BitVec.allOnes 32 else 100000 / priority

/-- `proc_stride_comp_f`: the difference of two strides is taken as a signed number. -/
def strideCompF (p q : ℕ) : ℤ :=
  let c := ((s.proc p).stride - (s.proc q).stride).toInt
  if 0 < c then 1 else if c = 0 then 0 else -1

/-- The comparison of the skew heap. -/
def strideLt (p q : ℕ) : Bool := s.strideCompF p q = -1

def maxTimeSlice : ℕ := 5

def strideEnqueue (p : ℕ) : Kernel :=
  { s.setProc p fun q ↦ { q with
      timeSlice := if q.timeSlice = 0 ∨ maxTimeSlice < q.timeSlice then maxTimeSlice
        else q.timeSlice } with
    rq :=
      { pool := s.rq.pool.insert s.strideLt p
        runList := s.rq.runList ++ [p]
        procNum := s.rq.procNum + 1 } }

def strideDequeue (p : ℕ) : Kernel :=
  { s with
    rq :=
      { pool := s.rq.pool.remove s.strideLt p
        runList := s.rq.runList.erase p
        procNum := s.rq.procNum - 1 } }

def schedClassEnqueue (p : ℕ) : Kernel := if p = s.idleproc then s else s.strideEnqueue p

variable {s} in
theorem schedClassEnqueue_of_eq {p : ℕ} (h : p = s.idleproc) : s.schedClassEnqueue p = s := if_pos h

variable {s} in
theorem schedClassEnqueue_of_ne {p : ℕ} (h : p ≠ s.idleproc) :
    s.schedClassEnqueue p = s.strideEnqueue p := if_neg h

/-- `stride_proc_tick` and `sched_class_proc_tick`. -/
def schedClassProcTick (p : ℕ) : Kernel :=
  if p = s.idleproc then s.setProc p fun q ↦ { q with needResched := true }
  else s.setProc p fun q ↦ { q with
    timeSlice := q.timeSlice - 1
    needResched := q.needResched || q.timeSlice ≤ 1 }

/-- The first half of `schedule`: the running process is queued again if it can run. -/
def requeue : Kernel :=
  let s₁ := s.setProc s.current fun q ↦ { q with needResched := false }
  if (s.proc s.current).state = .runnable then s₁.schedClassEnqueue s.current else s₁

/-- The second half of `schedule`, with `stride_pick_next` and `proc_run`. -/
def switch : Kernel :=
  match s.rq.pool.root with
  | none => s.setCurrent s.idleproc s.rq
  | some next =>
    let s₁ := (s.setProc next fun q ↦ { q with stride := q.stride + strideStep q.priority })
    s₁.setCurrent next (s₁.strideDequeue next).rq

def schedule : Kernel := s.requeue.switch

end Kernel

def wakeupProc (p : ℕ) : KProg Unit := do
  let s ← get
  assert ((s.proc p).state ≠ .zombie)
  if (s.proc p).state ≠ .runnable then
    modify fun s ↦ s.setProc p fun q ↦ { q with state := .runnable, waitState := 0 }
    if p ≠ s.current then
      modify fun s ↦ s.schedClassEnqueue p

/-- What `wakeup_proc` does to a process that is not in state `PROC_RUNNABLE`. -/
def Kernel.wakeup (s : Kernel) (p : ℕ) : Kernel :=
  let t := s.setProc p fun q ↦ { q with state := .runnable, waitState := 0 }
  if p ≠ s.current then t.schedClassEnqueue p else t

theorem run_wakeupProc {s : Kernel} {p : ℕ} (h : (s.proc p).state ≠ .zombie) :
    (wakeupProc p).run s = .ok () (if (s.proc p).state ≠ .runnable then s.wakeup p else s) := by
  rw [wakeupProc, get_bind_run, assert_bind_run h]
  by_cases hrun : (s.proc p).state = .runnable
  · rw [if_neg (not_not.mpr hrun), if_neg (not_not.mpr hrun), run_pure]
  · rw [if_pos hrun, if_pos hrun, modify_bind_run, Kernel.wakeup]
    by_cases hcur : p = s.current
    · rw [if_neg (not_not.mpr hcur), if_neg (not_not.mpr hcur), run_pure]
    · rw [if_pos hcur, if_pos hcur, run_modify]

/-! ## Semaphores -/

def up (k : ℕ) : KProg (List Event) := do
  let s ← get
  match (s.sems k).up with
  | (sem, none) =>
    modify fun s ↦ s.setSem k sem
    return [.up k]
  | (sem, some p) =>
    assert ((s.proc p).waitState = wtKsem)
    modify fun s ↦ (s.setSem k sem).setFlags p wtKsem
    wakeupProc p
    return [.hand k p, .up k]

/-- `down`, up to its call of `schedule`: without a unit the process joins the queue. -/
def down (k : ℕ) : KProg (List Event) := do
  let s ← get
  match (s.sems k).down s.current with
  | (sem, true) =>
    modify fun s ↦ s.setSem k sem
    return [.take k s.current]
  | (sem, false) =>
    modify fun s ↦ (((s.setSem k sem).setFlags s.current wtInterrupted).setProc s.current fun q ↦
      { q with state := .sleeping, waitState := wtKsem }).push [.schedule, .downRet k]
    return [.enqueue k s.current]

/-- `down` after its call of `schedule`: `wait_current_del`, and the assertion that the process was
woken by an `up`. -/
def downRet (k : ℕ) : KProg (List Event) := do
  modify fun s ↦ s.setSem k { s.sems k with queue := (s.sems k).queue.erase s.current }
  let s ← get
  assert (s.wakeupFlags s.current = wtKsem)
  return []

def tryDown (k : ℕ) : KProg (List Event) := do
  let s ← get
  match (s.sems k).tryDown with
  | (sem, true) =>
    modify fun s ↦ s.setSem k sem
    return [.take k s.current]
  | (_, false) => return []

/-! ## Timers -/

/-- A routine on the timer list. -/
def onTimers {α : Type} (m : Prog Errno (List Timer) α) : KProg α :=
  m.zoom Kernel.timers fun list s ↦ { s with timers := list }

/-- `do_sleep`, up to its call of `schedule`. -/
def doSleep (time : BitVec 32) : KProg (List Event) := do
  if time = 0 then
    return []
  let s ← get
  modify fun s ↦ s.setProc s.current fun q ↦ { q with state := .sleeping, waitState := wtTimer }
  onTimers (addTimer ⟨s.current, time.toNat, some s.current⟩)
  modify fun s ↦ s.push [.schedule, .sleepRet]
  return []

/-- `do_sleep` after its call of `schedule`. -/
def sleepRet : KProg (List Event) := do
  let s ← get
  onTimers (delTimer s.current)
  return []

/-- What `run_timer_list` does for the timers that have expired. -/
def wakeupTimers : List Timer → KProg Unit
  | [] => return ()
  | timer :: list =>
    match timer.proc with
    | none => halt
    | some p => do
      let s ← get
      assert ((s.proc p).waitState ≠ 0 → (s.proc p).waitState &&& wtInterrupted ≠ 0)
      wakeupProc p
      wakeupTimers list

/-- `run_timer_list`: what an interrupt of the clock does. -/
def timerInterrupt : KProg Unit := do
  let expired ← onTimers runTimerList
  wakeupTimers expired
  modify fun s ↦ s.schedClassProcTick s.current

end Ucore
