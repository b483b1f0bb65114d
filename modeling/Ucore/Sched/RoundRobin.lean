import Mathlib.Data.List.Nodup
import Ucore.Proc.Kernel

/-!
# The round-robin scheduler

`kern/schedule/default_sched.c` of lab 6, with the `wakeup_proc` and the `schedule` that drive it.
The run queue is a list: a process is put at its end and taken from its front. The idle process
never stands in the queue. The main result is `roundRobin_fair`: the queue is a FIFO that holds
every process that can run, is not running and is not idle, and between two selections of a process
every other one that can run all along is selected once.

## What a step does

A step is described by what it does to the queue. An action other than `schedule` leaves the running
process where it is, and at most a process joins the queue at its end (`Keeps`); `schedule` puts the
running process there if it can run, and takes the first one (`Scheduled`). The invariant, `Queued`,
is that the list holds just the processes that should be in it, each once. From this the processes
that have joined are those that were selected, followed by the queue (`Run.fifo`).

## Fairness

Between two selections of `p` a process `q` that can run all along goes through two phases
(`Phase`): at first `p` runs or stands behind `q` in the queue, and then `q` runs or stands behind
`p`. A step stays in the phase, or `q` is selected and the second one begins; `p` can only be
selected in the second. So `q` is selected just once in between (`Run.phase`), as long as both can
run.
-/

namespace Ucore.RoundRobin

open Prog

/-! ## The scheduler -/

/-- What the scheduler works on: `rq`, the fields of the processes that it uses, and `current`. A
process is named by the address of its `proc_struct`. -/
structure Rr where
  /-- `rq->run_list`. -/
  runList : List ℕ
  /-- `rq->proc_num`. -/
  procNum : ℕ
  /-- `rq->max_time_slice`. -/
  maxTimeSlice : ℕ
  /-- `proc->state`. -/
  state : ℕ → ProcState
  /-- `proc->time_slice`. -/
  timeSlice : ℕ → ℕ
  /-- `proc->need_resched`. -/
  needResched : ℕ → Bool
  /-- `proc->rq` is the run queue. -/
  inRq : ℕ → Bool
  current : ℕ
  idleproc : ℕ

/-- What happens to the run queue: a process is put in, or selected and taken out. -/
inductive Event
  | enqueue (p : ℕ)
  | select (p : ℕ)
  deriving DecidableEq, Repr

abbrev RrProg := Prog Errno Rr

namespace Rr

variable (s : Rr) (p : ℕ)

/-- What `RR_enqueue` does to a process that is in no queue. -/
def enqueue : Rr :=
  { s with
    runList := s.runList ++ [p]
    timeSlice := if s.timeSlice p = 0 ∨ s.maxTimeSlice < s.timeSlice p then
        Function.update s.timeSlice p s.maxTimeSlice else s.timeSlice
    inRq := Function.update s.inRq p true
    procNum := s.procNum + 1 }

/-- What `RR_dequeue` does to a process that is in the queue. -/
def dequeue : Rr := { s with runList := s.runList.erase p, procNum := s.procNum - 1 }

/-- `proc->state = …`. -/
def setState (x : ProcState) : Rr := { s with state := Function.update s.state p x }

/-- `proc->need_resched = …`. -/
def setNeedResched (b : Bool) : Rr := { s with needResched := Function.update s.needResched p b }

theorem setState_state (x : ProcState) : (s.setState p x).state = Function.update s.state p x := rfl

end Rr

/-- `RR_enqueue`. The link of a process that is in no queue is empty. -/
def rrEnqueue (p : ℕ) : RrProg Unit := do
  let s ← get
  assert (p ∉ s.runList)
  modify fun s ↦ s.enqueue p

def rrDequeue (p : ℕ) : RrProg Unit := do
  let s ← get
  assert (p ∈ s.runList ∧ s.inRq p = true)
  modify fun s ↦ s.dequeue p

def rrPickNext : RrProg (Option ℕ) := do
  let s ← get
  return s.runList.head?

def rrProcTick (p : ℕ) : RrProg Unit := do
  modify fun s ↦ { s with timeSlice := Function.update s.timeSlice p (s.timeSlice p - 1) }
  let s ← get
  if s.timeSlice p = 0 then
    modify fun s ↦ s.setNeedResched p true

def schedClassEnqueue (p : ℕ) : RrProg (List Event) := do
  let s ← get
  if p ≠ s.idleproc then
    rrEnqueue p
    return [.enqueue p]
  else
    return []

def schedClassProcTick (p : ℕ) : RrProg Unit := do
  let s ← get
  if p ≠ s.idleproc then
    rrProcTick p
  else
    modify fun s ↦ s.setNeedResched p true

def wakeupProc (p : ℕ) : RrProg (List Event) := do
  let s ← get
  assert (s.state p ≠ .zombie)
  if s.state p ≠ .runnable then
    modify fun s ↦ s.setState p .runnable
    if p ≠ s.current then
      schedClassEnqueue p
    else
      return []
  else
    return []

/-- The first half of `schedule`: the running process is queued again if it can run. -/
def requeue : RrProg (List Event) := do
  modify fun s ↦ s.setNeedResched s.current false
  let s ← get
  if s.state s.current = .runnable then
    schedClassEnqueue s.current
  else
    return []

/-- The second half of `schedule`. -/
def switch : RrProg (List Event) := do
  let next ← rrPickNext
  match next with
  | some p => do
    rrDequeue p
    modify fun s ↦ { s with current := p }
    return [.select p]
  | none => do
    modify fun s ↦ { s with current := s.idleproc }
    return []

def schedule : RrProg (List Event) := do
  let queued ← requeue
  let picked ← switch
  return queued ++ picked

/-! ## The steps -/

/-- What can happen on the processor. -/
inductive Act
  /-- `alloc_proc` for a new process, at the address of one that is gone or was never there. -/
  | alloc (p : ℕ)
  /-- `wakeup_proc`, for a new process or one that sleeps. -/
  | wakeup (p : ℕ)
  /-- The running process goes to sleep: `current->state = PROC_SLEEPING`. -/
  | sleep
  /-- The running process exits: `current->state = PROC_ZOMBIE`. -/
  | exit
  /-- `do_yield`. -/
  | yield
  /-- An interrupt of the clock. -/
  | tick
  /-- A call of `schedule`. -/
  | schedule

/-- What an action does. -/
def step : Act → RrProg (List Event)
  | .alloc p => do
    modify fun s ↦
      { (s.setState p .uninit).setNeedResched p false with
        timeSlice := Function.update s.timeSlice p 0
        inRq := Function.update s.inRq p false }
    return []
  | .wakeup p => wakeupProc p
  | .sleep => do
    modify fun s ↦ s.setState s.current .sleeping
    return []
  | .exit => do
    modify fun s ↦ s.setState s.current .zombie
    return []
  | .yield => do
    modify fun s ↦ s.setNeedResched s.current true
    return []
  | .tick => do
    let s ← get
    schedClassProcTick s.current
    return []
  | .schedule => schedule

/-- When an action can happen. Nothing is woken that has exited, and the memory of a process is used
again only after it has. -/
def Act.Legal (s : Rr) : Act → Prop
  | .alloc p => (s.state p = .uninit ∨ s.state p = .zombie) ∧ p ≠ s.current
  | .wakeup p => s.state p ≠ .zombie
  | _ => True

/-- The scheduler as `sched_init` and `proc_init` leave it: the idle process runs, and no other
can. -/
structure Start (s : Rr) : Prop where
  runList : s.runList = []
  procNum : s.procNum = 0
  current : s.current = s.idleproc
  state : ∀ p, p ≠ s.idleproc → s.state p ≠ .runnable

/-- `N` steps: the states, the actions, and what happened to the run queue. -/
structure Run (N : ℕ) (σ : ℕ → Rr) (act : ℕ → Act) (event : ℕ → List Event) : Prop where
  start : Start (σ 0)
  legal : ∀ n < N, (act n).Legal (σ n)
  step : ∀ n < N, (step (act n)).run (σ n) = .ok (event n) (σ (n + 1))

/-! ## The invariant -/

/-- The run queue holds the processes that can run, but for the one on the processor if `out` says
so and the idle one, each once. -/
structure Queued (s : Rr) (out : ℕ → Prop) : Prop where
  nodup : s.runList.Nodup
  mem_iff : ∀ p, p ∈ s.runList ↔ s.state p = .runnable ∧ ¬out p ∧ p ≠ s.idleproc
  procNum : s.procNum = s.runList.length
  inRq : ∀ p ∈ s.runList, s.inRq p = true

/-- The run queue between two steps: the process on the processor is not in it. -/
abbrev Inv (s : Rr) : Prop := Queued s fun p ↦ p = s.current

variable {s s' : Rr} {p q : ℕ} {ev : List Event}

theorem Start.inv (h : Start s) : Inv s where
  nodup := h.runList ▸ List.nodup_nil
  mem_iff p := by
    rw [h.runList]
    refine ⟨fun hp ↦ absurd hp List.not_mem_nil, fun ⟨hrun, _, hidle⟩ ↦ ?_⟩
    exact absurd hrun (h.state p hidle)
  procNum := by rw [h.procNum, h.runList, List.length_nil]
  inRq p hp := by
    rw [h.runList] at hp
    exact absurd hp List.not_mem_nil

/-- What a process that joins the queue does to it. -/
theorem Queued.enqueue {out o : ℕ → Prop} (h : Queued s out) (hp : p ∉ s.runList)
    (hout : ∀ x, s.state x = .runnable ∧ ¬o x ∧ x ≠ s.idleproc ↔
      (s.state x = .runnable ∧ ¬out x ∧ x ≠ s.idleproc) ∨ x = p) : Queued (s.enqueue p) o where
  nodup := by
    rw [Rr.enqueue, List.nodup_append]
    refine ⟨h.nodup, List.nodup_singleton p, fun x hx y hy ↦ ?_⟩
    rw [List.mem_singleton] at hy
    rintro rfl
    exact hp (hy ▸ hx)
  mem_iff x := by
    simp only [Rr.enqueue, List.mem_append, List.mem_singleton]
    rw [h.mem_iff, hout]
  procNum := by
    simp only [Rr.enqueue, List.length_append, List.length_singleton]
    rw [h.procNum]
  inRq x hx := by
    simp only [Rr.enqueue, List.mem_append, List.mem_singleton] at hx ⊢
    rcases eq_or_ne x p with rfl | hne
    · rw [Function.update_self]
    · rw [Function.update_of_ne hne]
      exact h.inRq x (hx.resolve_right hne)

theorem run_rrEnqueue (h : p ∉ s.runList) : (rrEnqueue p).run s = .ok () (s.enqueue p) := by
  rw [rrEnqueue, get_bind_run, assert_bind_run h, run_modify]

/-- `sched_class_enqueue` for a process that is not in the queue and can run. -/
theorem run_schedClassEnqueue (h : p ∉ s.runList) :
    (schedClassEnqueue p).run s =
      if p ≠ s.idleproc then .ok [.enqueue p] (s.enqueue p) else .ok [] s := by
  rw [schedClassEnqueue, get_bind_run]
  by_cases hp : p ≠ s.idleproc
  · rw [if_pos hp, if_pos hp, bind_of_ok (run_rrEnqueue h), run_pure]
  · rw [if_neg hp, if_neg hp, run_pure]

/-! ## What a step does -/

/-- A process that joins the queue, but for the idle one. -/
theorem Queued.schedClassEnqueue {out o : ℕ → Prop} (h : Queued s out) (hp : p ∉ s.runList)
    (hout : p ≠ s.idleproc → ∀ x, s.state x = .runnable ∧ ¬o x ∧ x ≠ s.idleproc ↔
      (s.state x = .runnable ∧ ¬out x ∧ x ≠ s.idleproc) ∨ x = p)
    (hidle : p = s.idleproc → ∀ x, s.state x = .runnable ∧ ¬o x ∧ x ≠ s.idleproc ↔
      s.state x = .runnable ∧ ¬out x ∧ x ≠ s.idleproc) :
    ∃ s' ev, (schedClassEnqueue p).run s = .ok ev s' ∧ Queued s' o ∧ s'.state = s.state ∧
      s'.current = s.current ∧ s'.idleproc = s.idleproc ∧
      (p ≠ s.idleproc ∧ ev = [.enqueue p] ∧ s'.runList = s.runList ++ [p] ∨
        p = s.idleproc ∧ ev = [] ∧ s'.runList = s.runList) := by
  rw [run_schedClassEnqueue hp]
  by_cases hne : p ≠ s.idleproc
  · rw [if_pos hne]
    exact ⟨_, _, rfl, h.enqueue hp (hout hne), rfl, rfl, rfl, .inl ⟨hne, rfl, rfl⟩⟩
  · rw [if_neg hne]
    have heq : p = s.idleproc := not_not.mp hne
    refine ⟨_, _, rfl, ⟨h.nodup, fun x ↦ ?_, h.procNum, h.inRq⟩, rfl, rfl, rfl,
      .inr ⟨heq, rfl, rfl⟩⟩
    rw [h.mem_iff, hidle heq]

/-- What an action other than `schedule` does: the running process stays, and the queue at most
grows at its end. -/
structure Keeps (s s' : Rr) (ev : List Event) : Prop where
  inv : Inv s'
  current : s'.current = s.current
  idleproc : s'.idleproc = s.idleproc
  queue : ∃ l, s'.runList = s.runList ++ l ∧ ev = l.map .enqueue

/-- Nothing the queue depends on changes. -/
theorem Keeps.of_eq (h : Inv s) (hlist : s'.runList = s.runList) (hnum : s'.procNum = s.procNum)
    (hcur : s'.current = s.current) (hidle : s'.idleproc = s.idleproc)
    (hstate : ∀ x, s'.state x = .runnable ∧ x ≠ s.current ↔ s.state x = .runnable ∧ x ≠ s.current)
    (hrq : ∀ x ∈ s.runList, s'.inRq x = s.inRq x) : Keeps s s' [] where
  inv :=
    { nodup := hlist ▸ h.nodup
      mem_iff := fun x ↦ by rw [hlist, h.mem_iff, hcur, hidle, ← and_assoc, ← and_assoc, hstate]
      procNum := by rw [hnum, hlist, h.procNum]
      inRq := fun x hx ↦ by
        rw [hlist] at hx
        rw [hrq x hx, h.inRq x hx] }
  current := hcur
  idleproc := hidle
  queue := ⟨[], by rw [hlist, List.append_nil], rfl⟩

/-- A process that is woken up joins the queue, unless it is still on the processor. -/
theorem run_wakeupProc (h : Inv s) (hp : s.state p ≠ .zombie) :
    ∃ s' ev, (wakeupProc p).run s = .ok ev s' ∧ Keeps s s' ev := by
  rw [wakeupProc, get_bind_run, assert_bind_run hp]
  by_cases hrun : s.state p = .runnable
  · rw [if_neg (not_not.mpr hrun), run_pure]
    exact ⟨_, _, rfl, .of_eq h rfl rfl rfl rfl (fun _ ↦ Iff.rfl) fun _ _ ↦ rfl⟩
  rw [if_pos hrun, modify_bind_run]
  have hstate : ∀ x, x ≠ p → (s.setState p .runnable).state x = s.state x := fun x hx ↦ by
    rw [Rr.setState_state, Function.update_of_ne hx]
  have hself : (s.setState p .runnable).state p = .runnable := by
    rw [Rr.setState_state, Function.update_self]
  by_cases hcur : p = s.current
  · rw [if_neg (not_not.mpr hcur), run_pure]
    refine ⟨_, _, rfl, .of_eq h rfl rfl rfl rfl (fun x ↦ ?_) fun _ _ ↦ rfl⟩
    refine and_congr_left fun hx ↦ ?_
    rw [hstate x (hcur ▸ hx)]
  rw [if_pos hcur]
  -- until it joins, the process that has been woken counts as out of the queue
  have hq : Queued (s.setState p .runnable) fun x ↦ x = s.current ∨ x = p :=
    { nodup := h.nodup
      mem_iff := fun x ↦ by
        refine (h.mem_iff x).trans ?_
        rcases eq_or_ne x p with rfl | hx
        · exact ⟨fun hx ↦ absurd hx.1 hrun, fun hx ↦ absurd (.inr rfl) hx.2.1⟩
        · rw [hstate x hx, not_or]
          exact and_congr_right fun _ ↦ and_congr_left fun _ ↦ ⟨fun h' ↦ ⟨h', hx⟩, And.left⟩
      procNum := h.procNum
      inRq := h.inRq }
  have hmem : p ∉ (s.setState p .runnable).runList := fun hmem ↦
    hrun ((h.mem_iff p).mp hmem).1
  obtain ⟨s', ev, hgo, hq', -, hcur', hidle', hcases⟩ := hq.schedClassEnqueue
    (o := fun x ↦ x = s.current) hmem
    (fun hne x ↦ by
      rcases eq_or_ne x p with rfl | hx
      · exact ⟨fun _ ↦ .inr rfl, fun _ ↦ ⟨hself, hcur, hne⟩⟩
      · rw [not_or]
        constructor
        · rintro ⟨h₁, h₂, h₃⟩
          exact .inl ⟨h₁, ⟨h₂, hx⟩, h₃⟩
        · rintro (⟨h₁, ⟨h₂, -⟩, h₃⟩ | rfl)
          · exact ⟨h₁, h₂, h₃⟩
          · exact absurd rfl hx)
    fun heq x ↦ by
      rw [not_or]
      constructor
      · rintro ⟨h₁, h₂, h₃⟩
        exact ⟨h₁, ⟨h₂, fun hx ↦ h₃ (hx.trans heq)⟩, h₃⟩
      · rintro ⟨h₁, ⟨h₂, -⟩, h₃⟩
        exact ⟨h₁, h₂, h₃⟩
  have hcurrent : s'.current = s.current := hcur'
  refine ⟨s', ev, hgo, by rwa [Inv, hcurrent], hcurrent, hidle', ?_⟩
  rcases hcases with ⟨-, rfl, hl⟩ | ⟨-, rfl, hl⟩
  · exact ⟨[p], hl, rfl⟩
  · exact ⟨[], by rw [List.append_nil, hl]; rfl, rfl⟩

/-- The running process is queued again, if it can run. -/
theorem run_requeue (h : Inv s) :
    ∃ s' ev, requeue.run s = .ok ev s' ∧ Queued s' (fun _ ↦ False) ∧ s'.state = s.state ∧
      s'.idleproc = s.idleproc ∧
      (s.state s.current = .runnable ∧ s.current ≠ s.idleproc ∧ ev = [.enqueue s.current] ∧
          s'.runList = s.runList ++ [s.current] ∨
        (s.state s.current = .runnable → s.current = s.idleproc) ∧ ev = [] ∧
          s'.runList = s.runList) := by
  rw [requeue, modify_bind_run, get_bind_run]
  have hq : Queued (s.setNeedResched s.current false) fun p ↦ p = s.current :=
    ⟨h.nodup, h.mem_iff, h.procNum, h.inRq⟩
  have hmem : s.current ∉ (s.setNeedResched s.current false).runList := fun hmem ↦
    ((h.mem_iff s.current).mp hmem).2.1 rfl
  have hcur : (s.setNeedResched s.current false).current = s.current := rfl
  have hstate : (s.setNeedResched s.current false).state = s.state := rfl
  rw [hcur, hstate]
  by_cases hrun : s.state s.current = .runnable
  · rw [if_pos hrun]
    obtain ⟨s', ev, hgo, hq', hst, -, hidle, hcases⟩ := hq.schedClassEnqueue
      (o := fun _ ↦ False) hmem
      (fun hne x ↦ by
        rcases eq_or_ne x s.current with rfl | hx
        · exact ⟨fun _ ↦ .inr rfl, fun _ ↦ ⟨hrun, not_false, hne⟩⟩
        · constructor
          · rintro ⟨h₁, -, h₃⟩
            exact .inl ⟨h₁, hx, h₃⟩
          · rintro (⟨h₁, -, h₃⟩ | rfl)
            · exact ⟨h₁, not_false, h₃⟩
            · exact absurd rfl hx)
      fun heq x ↦ by
        constructor
        · rintro ⟨h₁, -, h₃⟩
          exact ⟨h₁, fun hx ↦ h₃ (hx.trans heq), h₃⟩
        · rintro ⟨h₁, -, h₃⟩
          exact ⟨h₁, not_false, h₃⟩
    refine ⟨s', ev, hgo, hq', hst, hidle, ?_⟩
    rcases hcases with ⟨hne, rfl, hl⟩ | ⟨heq, rfl, hl⟩
    · exact .inl ⟨hrun, hne, rfl, hl⟩
    · exact .inr ⟨fun _ ↦ heq, rfl, hl⟩
  · rw [if_neg hrun, run_pure]
    refine ⟨_, _, rfl, ⟨h.nodup, fun x ↦ ?_, h.procNum, h.inRq⟩, rfl, rfl,
      .inr ⟨fun hcon ↦ absurd hcon hrun, rfl, rfl⟩⟩
    rw [show (s.setNeedResched s.current false).runList = s.runList from rfl, h.mem_iff]
    constructor
    · rintro ⟨h₁, -, h₃⟩
      exact ⟨h₁, not_false, h₃⟩
    · rintro ⟨h₁, -, h₃⟩
      exact ⟨h₁, fun hx ↦ hrun (hx ▸ h₁), h₃⟩

/-- The first process of the queue is selected, or the idle one when there is none. -/
theorem run_switch (h : Queued s fun _ ↦ False) :
    ∃ s' ev, switch.run s = .ok ev s' ∧ Inv s' ∧ s'.state = s.state ∧ s'.idleproc = s.idleproc ∧
      ((∃ p, s.runList = p :: s'.runList ∧ ev = [.select p] ∧ s'.current = p) ∨
        s.runList = [] ∧ s'.runList = [] ∧ ev = [] ∧ s'.current = s.idleproc) := by
  cases hlist : s.runList with
  | nil =>
    refine ⟨{ s with current := s.idleproc }, [], ?_, ⟨h.nodup, fun x ↦ ?_, h.procNum, h.inRq⟩, rfl,
      rfl, .inr ⟨rfl, hlist, rfl, rfl⟩⟩
    · rw [switch, rrPickNext, run_bind, get_bind_run, run_pure, hlist]
      simp only [List.head?_nil, modify_bind_run, run_pure, hlist]
    · refine (h.mem_iff x).trans ?_
      constructor
      · rintro ⟨h₁, -, h₃⟩
        exact ⟨h₁, h₃, h₃⟩
      · rintro ⟨h₁, -, h₃⟩
        exact ⟨h₁, not_false, h₃⟩
  | cons p rest =>
    have hnodup : (p :: rest).Nodup := hlist ▸ h.nodup
    have hmem : p ∈ s.runList := hlist ▸ List.mem_cons_self
    have herase : s.runList.erase p = rest := by rw [hlist, List.erase_cons_head]
    refine ⟨{ s.dequeue p with current := p }, [.select p], ?_, ?_, rfl, rfl,
      .inl ⟨p, ?_, rfl, rfl⟩⟩
    · have hdeq : (rrDequeue p).run s = .ok () (s.dequeue p) := by
        rw [rrDequeue, get_bind_run, assert_bind_run ⟨hmem, h.inRq p hmem⟩, run_modify]
      rw [switch, rrPickNext, run_bind, get_bind_run, run_pure, hlist]
      simp only [List.head?_cons]
      rw [bind_of_ok hdeq, modify_bind_run, run_pure]
    · refine ⟨?_, fun x ↦ ?_, ?_, fun x hx ↦ ?_⟩
      · simp only [Rr.dequeue, herase]
        exact hnodup.of_cons
      · simp only [Rr.dequeue, herase]
        have hx : x ∈ rest ↔ x ∈ s.runList ∧ x ≠ p := by
          rw [hlist, List.mem_cons]
          constructor
          · intro hx
            exact ⟨.inr hx, fun hp ↦ hnodup.notMem (hp ▸ hx)⟩
          · rintro ⟨hx, hne⟩
            exact hx.resolve_left hne
        rw [hx, h.mem_iff]
        constructor
        · rintro ⟨⟨h₁, -, h₃⟩, h₂⟩
          exact ⟨h₁, h₂, h₃⟩
        · rintro ⟨h₁, h₂, h₃⟩
          exact ⟨⟨h₁, not_false, h₃⟩, h₂⟩
      · simp only [Rr.dequeue, herase]
        rw [h.procNum, hlist, List.length_cons, Nat.add_sub_cancel]
      · simp only [Rr.dequeue, herase] at hx ⊢
        exact h.inRq x (hlist ▸ List.mem_cons_of_mem p hx)
    · simp only [Rr.dequeue, herase]

/-- What `schedule` does: the running process joins the queue at its end if it can run, and the
first process of the queue is selected. -/
structure Scheduled (s s' : Rr) (ev : List Event) : Prop where
  inv : Inv s'
  state : s'.state = s.state
  idleproc : s'.idleproc = s.idleproc
  queue : ∃ back front, s.runList ++ back = front ++ s'.runList ∧
    ev = back.map .enqueue ++ front.map .select ∧
    (back = [s.current] ∨
      back = [] ∧ (s.state s.current = .runnable → s.current = s.idleproc)) ∧
    (front = [s'.current] ∨ front = [] ∧ s'.runList = [] ∧ s'.current = s.idleproc)

theorem run_schedule (h : Inv s) :
    ∃ s' ev, schedule.run s = .ok ev s' ∧ Scheduled s s' ev := by
  obtain ⟨s₁, ev₁, hgo₁, hq₁, hst₁, hidle₁, hback⟩ := run_requeue h
  obtain ⟨s₂, ev₂, hgo₂, hinv, hst₂, hidle₂, hfront⟩ := run_switch hq₁
  refine ⟨s₂, ev₁ ++ ev₂, ?_, hinv, hst₂.trans hst₁, hidle₂.trans hidle₁, ?_⟩
  · rw [schedule, bind_of_ok hgo₁, bind_of_ok hgo₂, run_pure]
  obtain ⟨back, rfl, hlist, hback⟩ : ∃ back : List ℕ, ev₁ = back.map .enqueue ∧
      s₁.runList = s.runList ++ back ∧ (back = [s.current] ∨
        back = [] ∧ (s.state s.current = .runnable → s.current = s.idleproc)) := by
    rcases hback with ⟨-, -, rfl, hl⟩ | ⟨hnot, rfl, hl⟩
    · exact ⟨[s.current], rfl, hl, .inl rfl⟩
    · exact ⟨[], rfl, by rw [hl, List.append_nil], .inr ⟨rfl, hnot⟩⟩
  rcases hfront with ⟨p, hl, rfl, hcur⟩ | ⟨hl, hl', rfl, hcur⟩
  · refine ⟨back, [p], ?_, rfl, hback, .inl (by rw [hcur])⟩
    rw [← hlist, hl, List.singleton_append]
  · refine ⟨back, [], ?_, by rw [List.map_nil], hback, .inr ⟨rfl, hl', hcur.trans hidle₁⟩⟩
    rw [← hlist, hl, hl', List.append_nil]

/-- The clock changes time slices and marks the running process. -/
theorem run_schedClassProcTick (h : Inv s) (p : ℕ) :
    ∃ s', (schedClassProcTick p).run s = .ok () s' ∧ Keeps s s' [] := by
  rw [schedClassProcTick, get_bind_run]
  by_cases hne : p ≠ s.idleproc
  · rw [if_pos hne, rrProcTick, modify_bind_run, get_bind_run]
    by_cases hslice : Function.update s.timeSlice p (s.timeSlice p - 1) p = 0
    · rw [if_pos hslice, run_modify]
      exact ⟨_, rfl, .of_eq h rfl rfl rfl rfl (fun _ ↦ Iff.rfl) fun _ _ ↦ rfl⟩
    · rw [if_neg hslice, run_pure]
      exact ⟨_, rfl, .of_eq h rfl rfl rfl rfl (fun _ ↦ Iff.rfl) fun _ _ ↦ rfl⟩
  · rw [if_neg hne, run_modify]
    exact ⟨_, rfl, .of_eq h rfl rfl rfl rfl (fun _ ↦ Iff.rfl) fun _ _ ↦ rfl⟩

/-- Every action that can happen is carried out: no assertion of the scheduler fails. -/
theorem run_step (h : Inv s) {a : Act} (ha : a.Legal s) :
    ∃ s' ev, (step a).run s = .ok ev s' ∧ (Keeps s s' ev ∨ Scheduled s s' ev) := by
  -- a new state of the running process does not concern the queue
  have hcur : ∀ x y, y ≠ s.current →
      (s.setState s.current x).state y = s.state y := fun x y hy ↦ by
    rw [Rr.setState_state, Function.update_of_ne hy]
  cases a with
  | alloc p =>
    refine ⟨_, _, rfl,
      .inl (.of_eq h rfl rfl rfl rfl (fun x ↦ ?_) fun x hx ↦ ?_)⟩
    · refine and_congr_left fun hx ↦ ?_
      change (s.setState p .uninit).state x = _ ↔ _
      rw [Rr.setState_state]
      rcases eq_or_ne x p with rfl | hne
      · rw [Function.update_self]
        constructor
        · intro hcon
          cases hcon
        · intro hrun
          rw [Act.Legal, hrun] at ha
          rcases ha.1 with hcon | hcon
          · cases hcon
          · cases hcon
      · rw [Function.update_of_ne hne]
    · refine Function.update_of_ne ?_ _ _
      rintro rfl
      have hrun := ((h.mem_iff x).mp hx).1
      rw [Act.Legal, hrun] at ha
      rcases ha.1 with hcon | hcon
      · cases hcon
      · cases hcon
  | wakeup p =>
    obtain ⟨s', ev, hgo, hkeep⟩ := run_wakeupProc h ha
    exact ⟨s', ev, hgo, .inl hkeep⟩
  | sleep =>
    refine ⟨_, _, rfl,
      .inl (.of_eq h rfl rfl rfl rfl (fun x ↦ ?_) fun _ _ ↦ rfl)⟩
    exact and_congr_left fun hx ↦ by rw [hcur _ _ hx]
  | exit =>
    refine ⟨_, _, rfl,
      .inl (.of_eq h rfl rfl rfl rfl (fun x ↦ ?_) fun _ _ ↦ rfl)⟩
    exact and_congr_left fun hx ↦ by rw [hcur _ _ hx]
  | yield =>
    exact ⟨_, _, rfl,
      .inl (.of_eq h rfl rfl rfl rfl (fun _ ↦ Iff.rfl) fun _ _ ↦ rfl)⟩
  | tick =>
    obtain ⟨s', hgo, hkeep⟩ := run_schedClassProcTick h s.current
    exact ⟨s', [], by rw [step, get_bind_run, bind_of_ok hgo, run_pure], .inl hkeep⟩
  | schedule =>
    obtain ⟨s', ev, hgo, hsched⟩ := run_schedule h
    exact ⟨s', ev, hgo, .inr hsched⟩

variable {N : ℕ} {σ : ℕ → Rr} {act : ℕ → Act} {event : ℕ → List Event}

namespace Run

theorem inv (h : Run N σ act event) : ∀ n ≤ N, Inv (σ n) := by
  intro n
  induction n with
  | zero => exact fun _ ↦ h.start.inv
  | succ n ih =>
    intro hn
    obtain ⟨s', ev, hgo, hs'⟩ := run_step (ih (by omega)) (h.legal n hn)
    obtain ⟨rfl, rfl⟩ := Outcome.ok.inj ((h.step n hn).symm.trans hgo)
    rcases hs' with hkeep | hsched
    · exact hkeep.inv
    · exact hsched.inv

/-- What the step at `n` does. -/
theorem effect (h : Run N σ act event) {n : ℕ} (hn : n < N) :
    Keeps (σ n) (σ (n + 1)) (event n) ∨ Scheduled (σ n) (σ (n + 1)) (event n) := by
  obtain ⟨s', ev, hgo, hs'⟩ := run_step (h.inv n hn.le) (h.legal n hn)
  obtain ⟨rfl, rfl⟩ := Outcome.ok.inj ((h.step n hn).symm.trans hgo)
  exact hs'

theorem idleproc (h : Run N σ act event) : ∀ n ≤ N, (σ n).idleproc = (σ 0).idleproc := by
  intro n
  induction n with
  | zero => exact fun _ ↦ rfl
  | succ n ih =>
    intro hn
    rcases h.effect (n := n) hn with hkeep | hsched
    · rw [hkeep.idleproc, ih (by omega)]
    · rw [hsched.idleproc, ih (by omega)]

end Run

/-! ## The queue is a FIFO -/

/-- The processes that join the queue, in the order in which they do. -/
def enqueued (l : List Event) : List ℕ := l.filterMap fun e ↦
  match e with
  | .enqueue p => some p
  | .select _ => none

/-- The processes that are selected, in the order in which they are. -/
def selected (l : List Event) : List ℕ := l.filterMap fun e ↦
  match e with
  | .enqueue _ => none
  | .select p => some p

/-- What has happened in the first `n` steps. -/
def history (event : ℕ → List Event) (n : ℕ) : List Event := (List.range n).flatMap event

@[simp] theorem enqueued_append (l l' : List Event) :
    enqueued (l ++ l') = enqueued l ++ enqueued l' :=
  List.filterMap_append

@[simp] theorem selected_append (l l' : List Event) :
    selected (l ++ l') = selected l ++ selected l' :=
  List.filterMap_append

@[simp] theorem enqueued_map_enqueue (l : List ℕ) : enqueued (l.map .enqueue) = l := by
  induction l with
  | nil => rfl
  | cons p l ih => exact congrArg (p :: ·) ih

@[simp] theorem enqueued_map_select (l : List ℕ) : enqueued (l.map .select) = [] := by
  induction l with
  | nil => rfl
  | cons p l ih => exact ih

@[simp] theorem selected_map_enqueue (l : List ℕ) : selected (l.map .enqueue) = [] := by
  induction l with
  | nil => rfl
  | cons p l ih => exact ih

@[simp] theorem selected_map_select (l : List ℕ) : selected (l.map .select) = l := by
  induction l with
  | nil => rfl
  | cons p l ih => exact congrArg (p :: ·) ih

theorem history_succ (event : ℕ → List Event) (n : ℕ) :
    history event (n + 1) = history event n ++ event n := by
  rw [history, List.range_succ, List.flatMap_append, List.flatMap_singleton, history]

/-- One step: who joins does so at the end, and who is selected stood in front. -/
theorem fifo_step (h : Keeps s s' ev ∨ Scheduled s s' ev) :
    s.runList ++ enqueued ev = selected ev ++ s'.runList := by
  rcases h with hkeep | hsched
  · obtain ⟨l, hl, rfl⟩ := hkeep.queue
    rw [hl, enqueued_map_enqueue, selected_map_enqueue, List.nil_append]
  · obtain ⟨back, front, hlist, rfl, -, -⟩ := hsched.queue
    rw [enqueued_append, selected_append, enqueued_map_enqueue, enqueued_map_select,
      selected_map_enqueue, selected_map_select, List.append_nil, List.nil_append, hlist]

/-- The processes are selected in the order in which they joined the queue, and the rest is the
queue. -/
theorem Run.fifo (h : Run N σ act event) : ∀ n ≤ N,
    enqueued (history event n) = selected (history event n) ++ (σ n).runList := by
  intro n
  induction n with
  | zero =>
    intro _
    rw [h.start.runList]
    rfl
  | succ n ih =>
    intro hn
    rw [history_succ, enqueued_append, selected_append, ih (by omega), List.append_assoc,
      fifo_step (h.effect hn), List.append_assoc]

/-! ## Fairness -/

/-- Where two processes stand since the last selection of `p`. The flag tells whether `q` has been
selected since. -/
inductive Phase (p q : ℕ) (s : Rr) : Bool → Prop
  | running (hcur : s.current = p) (hq : q ∈ s.runList) : Phase p q s false
  | behind (hlist : [q, p].Sublist s.runList) : Phase p q s false
  | other (hcur : s.current = q) (hp : p ∈ s.runList) : Phase p q s true
  | ahead (hlist : [p, q].Sublist s.runList) : Phase p q s true

/-- A process that stands behind another one is not in front, and stays behind it unless that one is
selected. -/
theorem sublist_of_front {a b x : ℕ} {l rest : List ℕ} (hsub : [a, b].Sublist l)
    (hl : l = x :: rest)
    (hnodup : l.Nodup) : x ≠ b ∧ (x = a ∧ b ∈ rest ∨ x ≠ a ∧ [a, b].Sublist rest) := by
  subst hl
  have hmem : b ∈ rest := by
    cases hsub with
    | cons _ hrest => exact hrest.subset (by simp)
    | cons_cons _ hrest => exact List.singleton_sublist.mp hrest
  refine ⟨fun heq ↦ hnodup.notMem (heq ▸ hmem), ?_⟩
  rcases eq_or_ne x a with rfl | hne
  · exact .inl ⟨rfl, hmem⟩
  · refine .inr ⟨hne, ?_⟩
    cases hsub with
    | cons _ hrest => exact hrest
    | cons_cons _ hrest => exact absurd rfl hne

/-- The selection of `p` itself starts the first phase. -/
theorem phase_of_selected (h : Inv s) (hcur : s.current = p) (hpq : p ≠ q) (hq : q ≠ s.idleproc)
    (hrun : s.state q = .runnable) : Phase p q s false :=
  .running hcur ((h.mem_iff q).mpr ⟨hrun, fun hcon ↦ hpq (hcur.symm.trans hcon.symm), hq⟩)

/-- One step, as long as both processes can run. The phase moves on when `q` is selected, and `p` is
not selected before that. -/
theorem phase_step {b : Bool} (h : Inv s) (hs : Keeps s s' ev ∨ Scheduled s s' ev)
    (hphase : Phase p q s b) (hp : p ≠ s.idleproc) (hq : q ≠ s.idleproc)
    (hrunp : s.state p = .runnable) (hrunq : s.state q = .runnable) :
    (p ∈ selected ev → b = true) ∧
      (p ∉ selected ev → ∃ b', Phase p q s' b' ∧ b'.toNat = b.toNat + (selected ev).count q) := by
  rcases hs with hkeep | hsched
  · obtain ⟨l, hl, rfl⟩ := hkeep.queue
    rw [selected_map_enqueue]
    refine ⟨fun hmem ↦ absurd hmem List.not_mem_nil, fun _ ↦ ⟨b, ?_, rfl⟩⟩
    have hgrow : s.runList.Sublist s'.runList := hl ▸ List.sublist_append_left _ _
    cases hphase with
    | running hcur hmem => exact .running (hkeep.current.trans hcur) (hgrow.subset hmem)
    | behind hlist => exact .behind (hlist.trans hgrow)
    | other hcur hmem => exact .other (hkeep.current.trans hcur) (hgrow.subset hmem)
    | ahead hlist => exact .ahead (hlist.trans hgrow)
  obtain ⟨back, front, hlist, rfl, hback, hfront⟩ := hsched.queue
  rw [selected_append, selected_map_enqueue, selected_map_select, List.nil_append]
  have hnodup : (s.runList ++ back).Nodup := by
    rcases hback with rfl | ⟨rfl, -⟩
    · rw [List.nodup_append]
      refine ⟨h.nodup, List.nodup_singleton _, fun x hx y hy ↦ ?_⟩
      rw [List.mem_singleton.mp hy]
      exact ((h.mem_iff x).mp hx).2.1
    · rw [List.append_nil]
      exact h.nodup
  -- a process that runs and can go on is behind every queued one now
  have hlast : ∀ x y, s.current = x → s.state x = .runnable → x ≠ s.idleproc → y ∈ s.runList →
      [y, x].Sublist (s.runList ++ back) := by
    intro x y hcur hrun hne hmem
    rcases hback with rfl | ⟨rfl, hidle⟩
    · rw [hcur]
      exact (List.singleton_sublist.mpr hmem).append (List.Sublist.refl [x])
    · rw [hcur] at hidle
      exact absurd (hidle hrun) hne
  have hpick : ∀ x y, [x, y].Sublist (s.runList ++ back) →
      front = [s'.current] ∧ s.runList ++ back = s'.current :: s'.runList := by
    intro x y hsub
    rcases hfront with rfl | ⟨rfl, hnil, -⟩
    · exact ⟨rfl, hlist⟩
    · rw [hlist, hnil, List.nil_append] at hsub
      cases hsub
  -- `b` tells whether `q` had its turn since `p` had
  cases b with
  | false =>
    have hsub : [q, p].Sublist (s.runList ++ back) := by
      cases hphase with
      | running hcur hmem => exact hlast p q hcur hrunp hp hmem
      | behind hlist => exact hlist.trans (List.sublist_append_left _ _)
    obtain ⟨rfl, hhead⟩ := hpick q p hsub
    obtain ⟨hne, hnext⟩ := sublist_of_front hsub hhead hnodup
    refine ⟨fun hmem ↦ absurd (List.mem_singleton.mp hmem).symm hne, fun _ ↦ ?_⟩
    rcases hnext with ⟨hcur, hmem⟩ | ⟨hcur, hrest⟩
    · refine ⟨true, .other hcur hmem, ?_⟩
      rw [hcur, List.count_singleton_self]
      rfl
    · refine ⟨false, .behind hrest, ?_⟩
      rw [List.count_singleton, if_neg (by simpa using hcur), Nat.add_zero]
  | true =>
    have hsub : [p, q].Sublist (s.runList ++ back) := by
      cases hphase with
      | other hcur hmem => exact hlast q p hcur hrunq hq hmem
      | ahead hlist => exact hlist.trans (List.sublist_append_left _ _)
    obtain ⟨rfl, hhead⟩ := hpick p q hsub
    obtain ⟨hne, hnext⟩ := sublist_of_front hsub hhead hnodup
    refine ⟨fun _ ↦ rfl, fun hmem ↦ ?_⟩
    rcases hnext with ⟨hcur, -⟩ | ⟨-, hrest⟩
    · exact absurd (List.mem_singleton.mpr hcur.symm) hmem
    · refine ⟨true, .ahead hrest, ?_⟩
      rw [List.count_singleton, if_neg (by simpa using hne), Nat.add_zero]

/-- What happens in the steps from `i` up to, and without, `k`. -/
def between (event : ℕ → List Event) (i k : ℕ) : List Event := (List.range' i (k - i)).flatMap event

theorem between_self (event : ℕ → List Event) (i : ℕ) : between event i i = [] := by
  rw [between, Nat.sub_self, List.range'_zero, List.flatMap_nil]

theorem between_succ (event : ℕ → List Event) {i k : ℕ} (h : i ≤ k) :
    between event i (k + 1) = between event i k ++ event k := by
  rw [between, between, Nat.succ_sub h, List.range'_1_concat, List.flatMap_append,
    List.flatMap_singleton, Nat.add_sub_cancel' h]

/-- The phase tells how often `q` has been selected since the last selection of `p`. -/
theorem Run.phase (h : Run N σ act event) {i j : ℕ} (hj : j ≤ N) (hij : i < j) (hpq : p ≠ q)
    (hp : p ≠ (σ 0).idleproc) (hq : q ≠ (σ 0).idleproc) (hi : p ∈ selected (event i))
    (hrun : ∀ k, i < k → k ≤ j → (σ k).state p = .runnable ∧ (σ k).state q = .runnable) {k : ℕ}
    (hik : i + 1 ≤ k) (hkj : k ≤ j) (hbetween : ∀ m, i < m → m < k → p ∉ selected (event m)) :
    ∃ b : Bool, Phase p q (σ k) b ∧ (selected (between event (i + 1) k)).count q = b.toNat := by
  induction k, hik using Nat.le_induction with
  | base =>
    refine ⟨false, phase_of_selected (h.inv _ (by omega)) ?_ hpq ?_ (hrun _ (by omega) hkj).2, ?_⟩
    · rcases h.effect (n := i) (by omega) with hkeep | hsched
      · obtain ⟨l, -, hl⟩ := hkeep.queue
        rw [hl, selected_map_enqueue] at hi
        exact absurd hi List.not_mem_nil
      · obtain ⟨back, front, -, hev, -, hfront⟩ := hsched.queue
        rw [hev, selected_append, selected_map_enqueue, selected_map_select, List.nil_append] at hi
        rcases hfront with rfl | ⟨rfl, -⟩
        · exact (List.mem_singleton.mp hi).symm
        · exact absurd hi List.not_mem_nil
    · rwa [h.idleproc _ (by omega)]
    · rw [between_self]
      rfl
  | succ k hik ih =>
    obtain ⟨b, hphase, hcount⟩ := ih (by omega) fun m him hmk ↦ hbetween m him (by omega)
    have hidle := h.idleproc k (by omega)
    obtain ⟨hrunp, hrunq⟩ := hrun k (by omega) (by omega)
    obtain ⟨b', hphase', hb'⟩ := (phase_step (h.inv k (by omega)) (h.effect (by omega)) hphase
      (hidle ▸ hp) (hidle ▸ hq) hrunp hrunq).2 (hbetween k (by omega) (by omega))
    refine ⟨b', hphase', ?_⟩
    rw [between_succ event hik, selected_append, List.count_append, hcount, hb']

/-- In every run, no assertion of the scheduler fails, the queue holds the processes that can run,
are not running and are not idle, each once, and they leave it in the order in which they joined it.
And from one selection of `p` to the next one, every other process that can run all along is
selected exactly once. -/
theorem roundRobin_fair (h : Run N σ act event) :
    (∀ n ≤ N, Inv (σ n) ∧
      enqueued (history event n) = selected (history event n) ++ (σ n).runList ∧
      ∀ a : Act, a.Legal (σ n) → ∃ s ev, (step a).run (σ n) = .ok ev s) ∧
    ∀ p q i j, p ≠ q → p ≠ (σ 0).idleproc → q ≠ (σ 0).idleproc → i < j → j < N →
      p ∈ selected (event i) → p ∈ selected (event j) →
      (∀ k, i < k → k < j → p ∉ selected (event k)) →
      (∀ k, i < k → k ≤ j → (σ k).state p = .runnable ∧ (σ k).state q = .runnable) →
      (selected (between event (i + 1) j)).count q = 1 := by
  refine ⟨fun n hn ↦ ⟨h.inv n hn, h.fifo n hn, fun a ha ↦ ?_⟩, ?_⟩
  · obtain ⟨s, ev, hgo, -⟩ := run_step (h.inv n hn) ha
    exact ⟨s, ev, hgo⟩
  intro p q i j hpq hp hq hij hj hi hnext hbetween hrun
  obtain ⟨b, hphase, hcount⟩ := h.phase hj.le hij hpq hp hq hi hrun hij le_rfl hbetween
  have hidle := h.idleproc j hj.le
  obtain ⟨hrunp, hrunq⟩ := hrun j hij le_rfl
  have hb := (phase_step (h.inv j hj.le) (h.effect hj) hphase (hidle ▸ hp) (hidle ▸ hq) hrunp
    hrunq).1 hnext
  rw [hcount, hb]
  rfl

/-- Two processes that are woken up and take turns. -/
def turns : ℕ → Act
  | 0 => .wakeup 1
  | 1 => .wakeup 2
  | _ => .schedule

/-- Only the idle process, 0, is there. -/
def onlyIdle : Rr :=
  { runList := []
    procNum := 0
    maxTimeSlice := 5
    state := fun p ↦ if p = 0 then .runnable else .uninit
    timeSlice := fun _ ↦ 0
    needResched := fun _ ↦ false
    inRq := fun _ ↦ false
    current := 0
    idleproc := 0 }

/-- The states the two processes go through. -/
def turnState : ℕ → Rr
  | 0 => onlyIdle
  | n + 1 => (((step (turns n)).run (turnState n)).state?).getD (turnState n)

/-- What happens to the queue meanwhile. -/
def turnEvent (n : ℕ) : List Event :=
  match (step (turns n)).run (turnState n) with
  | .ok ev _ => ev
  | _ => []

theorem run_turns : Run 5 turnState turns turnEvent where
  start := ⟨rfl, rfl, rfl, fun p hp ↦ by
    rw [show (turnState 0).state p = if p = 0 then .runnable else .uninit from rfl,
      if_neg (show p ≠ 0 from hp)]
    rintro ⟨⟩⟩
  legal n hn := by
    interval_cases n
    · exact fun hcon ↦ by cases hcon
    · exact fun hcon ↦ by cases hcon
    · trivial
    · trivial
    · trivial
  step n hn := by interval_cases n <;> rfl

/-- Process 1 is selected by the step 2 and again by the step 4, and process 2 once in between. -/
theorem roundRobin_fair_turns : Run 5 turnState turns turnEvent ∧
    (selected (between turnEvent 3 4)).count 2 = 1 := by
  refine ⟨run_turns, (roundRobin_fair run_turns).2 1 2 2 4 (by decide) (by decide) (by decide)
    (by decide) (by decide) (by decide) (by decide) ?_ ?_⟩
  · intro k hk hk'
    interval_cases k
    decide
  · intro k hk hk'
    interval_cases k
    · exact ⟨by decide, by decide⟩
    · exact ⟨by decide, by decide⟩

end Ucore.RoundRobin
