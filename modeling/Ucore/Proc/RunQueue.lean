import Ucore.Lib.WaitQueue
import Ucore.Proc.Steps

/-!
# The run queue

What a process has still to do goes with its state: a sleeping process is in `schedule`, called by
`down`, `do_sleep` or `do_wait`, and its wait flag says by which of them. From this it follows that
a process is never woken out of a semaphore's queue by anything but `up`, that no zombie is woken,
and that the run queue holds exactly the runnable processes that are not running.

## The invariant

`Kernel.SchedOk` collects what holds between any two sections. `Shape` relates state, wait flag,
wakeup flags and code of every process; the run queue holds each process that is `Ready` once, in
the heap, in the list and in the count (`RunQueue.Holds`); the timer list encodes the countdowns of
the calls of `do_sleep`; and the process structure that a call of `do_fork` is making is known to
that call only. The queues of the semaphores are apart from it (`Kernel.SemsOk`), as a process joins
one before it gives the processor away.

Most sections change none of this. `SameSched` says that two states agree on what the invariant
looks at, and carries it from the one to the other.
-/

namespace Ucore

open Prog

/-! ## What a process has still to do -/

/-- The wait flag of a process that goes on with this section when it is woken. -/
def Section.wait? : Section → Option (BitVec 32)
  | .downRet _ => some wtKsem
  | .sleepRet => some wtTimer
  | .waitRet _ => some wtChild
  | _ => none

/-- The sections that other sections can follow. -/
def Section.Inner : Section → Prop
  | .up _ | .down _ | .tryDown _ | .locks | .closeallFd _ _ | .exitFiles | .destroyFd _ _
  | .closeFd _ _ | .freeFd _ _ | .noneFd _ _ | .freeFiles _ | .reads _ | .fileUse _ | .releaseFd _ _
  | .fileClose _ => True
  | _ => False

/-- The sections that a process runs in state `PROC_RUNNABLE` without having been woken for them. -/
def Section.Plain : Section → Prop
  | .downRet _ | .sleepRet | .waitRet _ | .waitSleep _ | .exitTell | .exited => False
  | _ => True

/-- A list of sections to run in state `PROC_RUNNABLE`. -/
inductive Tidy : List Section → Prop
  | nil : Tidy []
  | last {i : Section} (hi : i.Plain) : Tidy [i]
  | cons {i : Section} {l : List Section} (hi : i.Inner) (hl : Tidy l) : Tidy (i :: l)

/-- What can follow a section that a process goes on with when it is woken: `do_wait` is not part of
another call. -/
structure Section.Before (r : Section) (l : List Section) : Prop where
  tidy : Tidy l
  nil : ∀ pid, r = .waitRet pid → l = []

/-- How the state of a process, its wait flag, `wakeup_flags` of its wait entry and what it has
still to do go together; `cur` says whether it is the process on the processor. -/
inductive Shape (cur : Prop) : ProcState → BitVec 32 → BitVec 32 → List Section → Prop
  /-- It is being made, or its memory is unused. -/
  | uninit {f : BitVec 32} (h : ¬cur) : Shape cur .uninit 0 f []
  /-- It runs or is ready to run. -/
  | plain {f : BitVec 32} {l : List Section} (hl : Tidy l) : Shape cur .runnable 0 f l
  /-- It was woken, and has not gone on from there. -/
  | woken {f w : BitVec 32} {r : Section} {l : List Section} (hr : r.wait? = some w)
      (hf : ∀ k, r = .downRet k → f = wtKsem) (hl : r.Before l) : Shape cur .runnable 0 f (r :: l)
  /-- It was woken before it called `schedule`. -/
  | early {f w : BitVec 32} {r : Section} {l : List Section} (h : cur) (hr : r.wait? = some w)
      (hf : ∀ k, r = .downRet k → f = wtKsem) (hl : r.Before l) :
      Shape cur .runnable 0 f (.schedule :: r :: l)
  /-- It is between the two assignments of `do_wait`. -/
  | drowsy {f : BitVec 32} {pid : ℕ} (h : cur) : Shape cur .sleeping 0 f [.waitSleep pid]
  /-- It is about to call `schedule` in order to sleep. -/
  | going {f w : BitVec 32} {r : Section} {l : List Section} (h : cur) (hr : r.wait? = some w)
      (hl : r.Before l) : Shape cur .sleeping w f (.schedule :: r :: l)
  /-- It sleeps. -/
  | asleep {f w : BitVec 32} {r : Section} {l : List Section} (h : ¬cur) (hr : r.wait? = some w)
      (hl : r.Before l) : Shape cur .sleeping w f (r :: l)
  /-- It is about to tell its relatives that it exits. -/
  | telling {f : BitVec 32} (h : cur) : Shape cur .zombie 0 f [.exitTell, .schedule, .exited]
  /-- It is about to call `schedule` for the last time. -/
  | dying {f : BitVec 32} (h : cur) : Shape cur .zombie 0 f [.schedule, .exited]
  /-- It has exited. -/
  | dead {f : BitVec 32} (h : ¬cur) : Shape cur .zombie 0 f [.exited]

/-- The semaphore whose `down` is to go on. -/
def semOf : List Section → Option ℕ
  | .downRet k :: _ => some k
  | .schedule :: .downRet k :: _ => some k
  | _ => none

/-- A call of `do_sleep` is to go on. -/
def AtTimer : List Section → Prop
  | .sleepRet :: _ => True
  | .schedule :: .sleepRet :: _ => True
  | _ => False

/-- The process structure that a section of `do_fork` is about to publish. -/
def Section.embryo? : Section → Option ℕ
  | .forkDup _ p _ _ | .forkMm _ p _ _ | .forkLink _ p _ | .forkWake _ p _ => some p
  | _ => none

/-- The process structure that a list of sections is about to publish. -/
def embryo? (l : List Section) : Option ℕ := l.getLast?.bind Section.embryo?

/-- A run queue holds exactly the processes with the property `A`, each once: in the heap, in the
list and in the count. -/
structure RunQueue.Holds (rq : RunQueue) (A : ℕ → Prop) : Prop where
  mem_iff : ∀ p, p ∈ rq.pool.toList ↔ A p
  nodup : rq.pool.toList.Nodup
  perm : rq.runList.Perm rq.pool.toList
  num : rq.procNum = rq.runList.length

namespace Kernel

/-- The semaphore in whose queue a process waits. -/
def place (s : Kernel) (p : ℕ) : Option ℕ :=
  if (s.proc p).state = .sleeping then semOf (s.code p) else none

/-- A process in state `PROC_RUNNABLE` other than the running one and the idle process. -/
def Ready (s : Kernel) (p : ℕ) : Prop :=
  p ∈ s.live ∧ (s.proc p).state = .runnable ∧ p ≠ s.current ∧ p ≠ s.idleproc

instance (s : Kernel) : DecidablePred s.Ready := fun p ↦
  inferInstanceAs (Decidable (p ∈ s.live ∧ _ ∧ p ≠ s.current ∧ p ≠ s.idleproc))

/-- What holds in every state of the kernel that concerns the scheduler, but for the queues of the
semaphores. -/
structure SchedOk (s : Kernel) : Prop where
  current_live : s.current ∈ s.live
  idle_live : s.idleproc ∈ s.live
  idle_runnable : (s.proc s.idleproc).state = .runnable
  idle_code : s.code s.idleproc = [] ∨ s.code s.idleproc = [.schedule]
  shape : ∀ p, Shape (p = s.current) (s.proc p).state (s.proc p).waitState (s.wakeupFlags p)
    (s.code p)
  unused : ∀ p, p ∉ s.live → (s.proc p).state = .uninit ∨ (s.proc p).state = .zombie
  parent : ∀ p ∈ s.live, p ≠ s.idleproc → (s.proc p).parent ≠ none
  queue : s.rq.Holds s.Ready
  timers : ∃ past, TimersOk past s.timers
  timer : ∀ t ∈ s.timers, t.proc = some t.id ∧ AtTimer (s.code t.id)
  embryo : ∀ p q, embryo? (s.code q) = some p → p ∈ s.live ∧ (s.proc p).state = .uninit
  embryo_unique : ∀ p q q', embryo? (s.code q) = some p → embryo? (s.code q') = some p → q = q'

/-- The queues of the semaphores hold exactly the processes that wait in them. -/
def SemsOk (s : Kernel) : Prop := WaitQueue.Agree (fun k ↦ (s.sems k).queue) s.place

/-- What holds in every state of the kernel that concerns the scheduler. -/
structure RunOk (s : Kernel) : Prop where
  sched : s.SchedOk
  sems : s.SemsOk

end Kernel

/-! ## Lists of sections -/

section Tidy

variable {i r : Section} {l rest : List Section} {w : BitVec 32}

theorem Section.not_plain_of_wait? (h : r.wait? = some w) : ¬r.Plain := by
  cases r <;> first | exact id | cases h

theorem Section.Inner.plain (h : i.Inner) : i.Plain := by
  cases i <;> first | exact trivial | exact absurd h id

theorem Tidy.tail (h : Tidy (i :: l)) : Tidy l := by
  cases h with
  | last _ => exact .nil
  | cons _ hl => exact hl

theorem Tidy.eq_nil (h : Tidy (i :: l)) (hi : ¬i.Inner) : l = [] := by
  cases h with
  | last _ => rfl
  | cons hinner _ => exact absurd hinner hi

theorem Tidy.append (hr : ∀ i ∈ rest, i.Inner) (hl : Tidy l) : Tidy (rest ++ l) := by
  induction rest with
  | nil => exact hl
  | cons i rest ih =>
    exact .cons (hr i List.mem_cons_self) (ih fun j hj ↦ hr j (List.mem_cons_of_mem i hj))

theorem embryo?_nil : embryo? [] = none := rfl

theorem embryo?_cons_of_ne (i : Section) (h : l ≠ []) : embryo? (i :: l) = embryo? l := by
  rw [embryo?, embryo?, List.getLast?_cons_of_ne_nil h]

theorem embryo?_singleton (i : Section) : embryo? [i] = i.embryo? := rfl

theorem embryo?_of_tail {p : ℕ} (h : embryo? l = some p) : embryo? (i :: l) = some p := by
  have hne : l ≠ [] := by
    rintro rfl
    cases h
  rw [embryo?_cons_of_ne i hne, h]

/-- Sections that publish nothing, put in front, change nothing. -/
theorem embryo?_append (h : ∀ i ∈ rest, i.embryo? = none) : embryo? (rest ++ l) = embryo? l := by
  induction rest with
  | nil => rfl
  | cons i rest ih =>
    have ih' := ih fun j hj ↦ h j (List.mem_cons_of_mem i hj)
    rw [List.cons_append]
    by_cases hne : rest ++ l = []
    · rw [hne, embryo?_singleton, h i List.mem_cons_self]
      rw [List.append_eq_nil_iff] at hne
      rw [hne.2, embryo?_nil]
    · rw [embryo?_cons_of_ne i hne, ih']

theorem Section.Inner.embryo?_eq (h : i.Inner) : i.embryo? = none := by
  cases i <;> first | rfl | exact absurd h id

theorem Tidy.not_atTimer (h : Tidy l) : ¬AtTimer l := by
  cases h with
  | nil => exact id
  | @last i hi => cases i <;> first | exact id | exact absurd hi id
  | @cons i l hi hl => cases i <;> first | exact id | exact absurd hi id

end Tidy

section Shape

variable {cur : Prop} {st : ProcState} {w f : BitVec 32} {i : Section} {l : List Section}

/-- On the processor, a section that is run in state `PROC_RUNNABLE` finds that state. -/
theorem Shape.of_plain (h : Shape cur st w f (i :: l)) (hcur : cur) (hi : i.Plain)
    (hne : i ≠ .schedule) : st = .runnable ∧ w = 0 ∧ Tidy (i :: l) := by
  cases h with
  | plain hl => exact ⟨rfl, rfl, hl⟩
  | woken hr _ _ => exact absurd hi (Section.not_plain_of_wait? hr)
  | early _ _ _ _ => exact absurd rfl hne
  | drowsy _ => exact absurd hi id
  | going _ _ _ => exact absurd rfl hne
  | asleep hnot _ _ => exact absurd hcur hnot
  | telling _ => exact absurd hi id
  | dying _ => exact absurd rfl hne
  | dead hnot => exact absurd hcur hnot

/-- A process that goes on after it was woken is in state `PROC_RUNNABLE`. -/
theorem Shape.of_wait {w' : BitVec 32} (h : Shape cur st w f (i :: l)) (hcur : cur)
    (hi : i.wait? = some w') :
    st = .runnable ∧ w = 0 ∧ (∀ k, i = .downRet k → f = wtKsem) ∧ i.Before l := by
  cases h with
  | plain hl =>
    cases hl with
    | last hp => exact absurd hp (Section.not_plain_of_wait? hi)
    | cons hp _ => exact absurd hp.plain (Section.not_plain_of_wait? hi)
  | woken _ hf hl => exact ⟨rfl, rfl, hf, hl⟩
  | early _ _ _ _ => cases hi
  | drowsy _ => cases hi
  | going _ _ _ => cases hi
  | asleep hnot _ _ => exact absurd hcur hnot
  | telling _ => cases hi
  | dying _ => cases hi
  | dead _ => cases hi

theorem Shape.congr {cur' : Prop} (h : Shape cur st w f l) (hcur : cur ↔ cur') :
    Shape cur' st w f l := (propext hcur) ▸ h

/-- A process with a wait flag sleeps. -/
theorem Shape.sleeping_of_ne_zero (h : Shape cur st w f l) (hw : w ≠ 0) : st = .sleeping := by
  cases h with
  | going _ _ _ | asleep _ _ _ => rfl
  | _ => exact absurd rfl hw

end Shape

/-! ## The queue -/

section Queue

variable {s : Kernel} {A B : ℕ → Prop} {p : ℕ}

theorem RunQueue.Holds.congr {rq : RunQueue} (h : rq.Holds A) (hAB : ∀ p, A p ↔ B p) :
    rq.Holds B :=
  ⟨fun p ↦ (h.mem_iff p).trans (hAB p), h.nodup, h.perm, h.num⟩

theorem Kernel.strideEnqueue_holds (h : s.rq.Holds A) (hp : ¬A p) :
    (s.strideEnqueue p).rq.Holds fun q ↦ q = p ∨ A q where
  mem_iff q := by
    rw [← h.mem_iff q, ← List.mem_cons]
    exact (SkewHeap.toList_insert s.strideLt s.rq.pool p).mem_iff
  nodup := by
    refine (SkewHeap.toList_insert s.strideLt s.rq.pool p).nodup_iff.mpr ?_
    exact List.nodup_cons.mpr ⟨fun hmem ↦ hp ((h.mem_iff p).mp hmem), h.nodup⟩
  perm := by
    refine List.Perm.trans ?_ (SkewHeap.toList_insert s.strideLt s.rq.pool p).symm
    exact List.perm_append_comm.trans (h.perm.cons p)
  num := by
    change s.rq.procNum + 1 = (s.rq.runList ++ [p]).length
    rw [List.length_append, List.length_singleton, h.num]

theorem Kernel.strideDequeue_holds (h : s.rq.Holds A) (hp : s.rq.pool.root = some p) :
    (s.strideDequeue p).rq.Holds fun q ↦ A q ∧ q ≠ p := by
  have hperm : s.rq.pool.toList.Perm (p :: (s.rq.pool.remove s.strideLt p).toList) :=
    SkewHeap.toList_remove_root s.strideLt hp
  have hnodup : (p :: (s.rq.pool.remove s.strideLt p).toList).Nodup := hperm.nodup_iff.mp h.nodup
  have hmem : p ∈ s.rq.runList := h.perm.mem_iff.mpr (SkewHeap.mem_of_root hp)
  refine ⟨fun q ↦ ?_, hnodup.of_cons, ?_, ?_⟩
  · rw [← h.mem_iff q, hperm.mem_iff, List.mem_cons]
    change q ∈ (s.rq.pool.remove s.strideLt p).toList ↔ _
    constructor
    · intro hq
      refine ⟨.inr hq, ?_⟩
      rintro rfl
      exact hnodup.notMem hq
    · rintro ⟨hq, hne⟩
      exact hq.resolve_left hne
  · refine List.Perm.cons_inv (a := p) ?_
    exact (List.perm_cons_erase hmem).symm.trans (h.perm.trans hperm)
  · change s.rq.procNum - 1 = (s.rq.runList.erase p).length
    rw [List.length_erase_of_mem hmem, h.num]

end Queue

/-! ## States that look the same to the scheduler -/

/-- Two states agree on what the scheduler looks at. -/
structure SameSched (s t : Kernel) : Prop where
  live : t.live = s.live
  current : t.current = s.current
  idleproc : t.idleproc = s.idleproc
  initproc : t.initproc = s.initproc
  rq : t.rq = s.rq
  timers : t.timers = s.timers
  sems : t.sems = s.sems
  code : t.code = s.code
  wakeupFlags : t.wakeupFlags = s.wakeupFlags
  state : ∀ p, (t.proc p).state = (s.proc p).state
  waitState : ∀ p, (t.proc p).waitState = (s.proc p).waitState
  parent : ∀ p, (s.proc p).parent ≠ none → (t.proc p).parent ≠ none

namespace SameSched

variable {s t u : Kernel}

theorem refl (s : Kernel) : SameSched s s :=
  ⟨rfl, rfl, rfl, rfl, rfl, rfl, rfl, rfl, rfl, fun _ ↦ rfl, fun _ ↦ rfl, fun _ ↦ id⟩

theorem trans (h : SameSched s t) (h' : SameSched t u) : SameSched s u where
  live := h'.live.trans h.live
  current := h'.current.trans h.current
  idleproc := h'.idleproc.trans h.idleproc
  initproc := h'.initproc.trans h.initproc
  rq := h'.rq.trans h.rq
  timers := h'.timers.trans h.timers
  sems := h'.sems.trans h.sems
  code := h'.code.trans h.code
  wakeupFlags := h'.wakeupFlags.trans h.wakeupFlags
  state p := (h'.state p).trans (h.state p)
  waitState p := (h'.waitState p).trans (h.waitState p)
  parent p hp := h'.parent p (h.parent p hp)

/-- A change of fields that the scheduler does not look at. -/
theorem setProc (s : Kernel) (p : ℕ) {f : Proc → Proc} (hst : ∀ q, (f q).state = q.state)
    (hws : ∀ q, (f q).waitState = q.waitState)
    (hpar : ∀ q : Proc, q.parent ≠ none → (f q).parent ≠ none) : SameSched s (s.setProc p f) where
  live := rfl
  current := rfl
  idleproc := rfl
  initproc := rfl
  rq := rfl
  timers := rfl
  sems := rfl
  code := rfl
  wakeupFlags := rfl
  state q := by
    rcases eq_or_ne q p with rfl | hq
    · exact (congrArg Proc.state (Function.update_self ..)).trans (hst _)
    · exact congrArg Proc.state (Function.update_of_ne hq ..)
  waitState q := by
    rcases eq_or_ne q p with rfl | hq
    · exact (congrArg Proc.waitState (Function.update_self ..)).trans (hws _)
    · exact congrArg Proc.waitState (Function.update_of_ne hq ..)
  parent q hq := by
    rcases eq_or_ne q p with rfl | hne
    · rw [Kernel.setProc]
      dsimp only
      rw [Function.update_self]
      exact hpar _ hq
    · rw [Kernel.setProc]
      dsimp only
      rw [Function.update_of_ne hne]
      exact hq

theorem setMem (s : Kernel) (f : Memory → Memory) : SameSched s (s.setMem f) :=
  ⟨rfl, rfl, rfl, rfl, rfl, rfl, rfl, rfl, rfl, fun _ ↦ rfl, fun _ ↦ rfl, fun _ ↦ id⟩

theorem setCurrent (h : SameSched s t) (c : ℕ) (rq : RunQueue) :
    SameSched (s.setCurrent c rq) (t.setCurrent c rq) :=
  ⟨h.live, rfl, h.idleproc, h.initproc, rfl, h.timers, h.sems, h.code, h.wakeupFlags, h.state,
    h.waitState, h.parent⟩

instance : Std.Refl SameSched := ⟨refl⟩

instance : IsTrans Kernel SameSched := ⟨fun _ _ _ ↦ trans⟩

/-! ### What leaves the scheduler alone -/

/-- The links between processes. -/
theorem setLink (s : Kernel) (p : ℕ) (f : Proc → Proc) (hst : ∀ q, (f q).state = q.state)
    (hws : ∀ q, (f q).waitState = q.waitState) (hpar : ∀ q, (f q).parent = q.parent) :
    SameSched s (s.setProc p f) :=
  setProc s p hst hws fun q hq ↦ (hpar q).symm ▸ hq

theorem setYptr (s : Kernel) (q v : Option ℕ) : SameSched s (s.setYptr q v) := by
  cases q with
  | none => exact refl s
  | some q =>
    exact setLink s q (fun r ↦ { r with yptr := v }) (fun _ ↦ rfl) (fun _ ↦ rfl) fun _ ↦ rfl

theorem adopt (s : Kernel) (p q : ℕ) : SameSched s (s.adopt p q) := by
  have h₁ := setLink s p (fun r ↦ { r with yptr := none }) (fun _ ↦ rfl) (fun _ ↦ rfl) fun _ ↦ rfl
  rw [Kernel.adopt]
  set s₁ := s.setProc p fun r ↦ { r with yptr := none } with hs₁
  have h₂ := setLink s₁ p (fun r ↦ { r with optr := (s₁.proc q).cptr }) (fun _ ↦ rfl)
    (fun _ ↦ rfl) fun _ ↦ rfl
  set s₂ := s₁.setProc p fun r ↦ { r with optr := (s₁.proc q).cptr } with hs₂
  have h₃ := setYptr s₂ (s₁.proc q).cptr (some p)
  set s₃ := s₂.setYptr (s₁.proc q).cptr (some p) with hs₃
  have h₄ := setLink s₃ q (fun r ↦ { r with cptr := some p }) (fun _ ↦ rfl) (fun _ ↦ rfl)
    fun _ ↦ rfl
  exact ((h₁.trans h₂).trans h₃).trans h₄

theorem setLinks (s : Kernel) (p q : ℕ) : SameSched s (s.setLinks p q) := by
  have h := adopt s p q
  exact ⟨h.live, h.current, h.idleproc, h.initproc, h.rq, h.timers, h.sems, h.code, h.wakeupFlags,
    h.state, h.waitState, h.parent⟩

theorem hashProc (s : Kernel) (p : ℕ) : SameSched s (s.hashProc p) :=
  ⟨rfl, rfl, rfl, rfl, rfl, rfl, rfl, rfl, rfl, fun _ ↦ rfl, fun _ ↦ rfl, fun _ ↦ id⟩

theorem unhashProc (s : Kernel) (p : ℕ) : SameSched s (s.unhashProc p) :=
  ⟨rfl, rfl, rfl, rfl, rfl, rfl, rfl, rfl, rfl, fun _ ↦ rfl, fun _ ↦ rfl, fun _ ↦ id⟩

/-- `list_del` and `nr_process --`. -/
theorem unlist (s : Kernel) (l : List ℕ) (n : ℕ) :
    SameSched s { s with procList := l, nrProcess := n } :=
  ⟨rfl, rfl, rfl, rfl, rfl, rfl, rfl, rfl, rfl, fun _ ↦ rfl, fun _ ↦ rfl, fun _ ↦ id⟩

theorem removeLinks (s : Kernel) (p : ℕ) : SameSched s (s.removeLinks p) := by
  have h₁ := setYptr s (s.proc p).optr (s.proc p).yptr
  rw [Kernel.removeLinks]
  set s₁ := s.setYptr (s.proc p).optr (s.proc p).yptr with hs₁
  cases (s₁.proc p).yptr with
  | some y =>
    exact h₁.trans ((setLink s₁ y (fun r ↦ { r with optr := (s₁.proc p).optr }) (fun _ ↦ rfl)
      (fun _ ↦ rfl) fun _ ↦ rfl).trans (unlist _ _ _))
  | none =>
    cases (s₁.proc p).parent with
    | some q =>
      exact h₁.trans ((setLink s₁ q (fun r ↦ { r with cptr := (s₁.proc p).optr }) (fun _ ↦ rfl)
        (fun _ ↦ rfl) fun _ ↦ rfl).trans (unlist _ _ _))
    | none => exact h₁.trans (unlist _ _ _)

theorem putKstack (s : Kernel) (p : ℕ) : SameSched s (s.putKstack p) := by
  rw [Kernel.putKstack]
  cases (s.proc p).kstack with
  | none => exact refl s
  | some page => exact setMem s _

theorem setFiles (s : Kernel) (f : ℕ) (g : Files → Files) : SameSched s (s.setFiles f g) :=
  setMem s _

theorem setFile (s : Kernel) (f fd : ℕ) (g : File → File) : SameSched s (s.setFile f fd g) :=
  setFiles s f _

theorem getFdArray : Moves SameSched getFdArray := by
  refine .bind .get fun s ↦ ?_
  cases (s.proc s.current).filesp with
  | none => exact .halt
  | some f => exact .bind (.assert _) fun _ ↦ .pure f

theorem fdArrayAlloc (fd : Option ℕ) : Moves SameSched (fdArrayAlloc fd) := by
  refine .bind getFdArray fun f ↦ .bind .get fun s ↦ ?_
  cases s.freeFd f fd with
  | error e => exact .fail e
  | ok fd =>
    exact .bind (.assert _) fun _ ↦ .bind (.modify fun s ↦ setFile s f fd _) fun _ ↦ .pure _

theorem fd2file (fd : ℕ) : Moves SameSched (fd2file fd) := by
  refine .ite (fun _ ↦ .bind getFdArray fun f ↦ .bind .get fun s ↦ ?_) fun _ ↦ .fail _
  exact .ite (fun _ ↦ .pure f) fun _ ↦ .fail _

theorem fdArrayOpen (f fd node : ℕ) : Moves SameSched (fdArrayOpen f fd node) :=
  .bind .get fun _ ↦ .bind (.assert _) fun _ ↦ .modify fun s ↦ setFile s f fd _

theorem fdArrayFree (f fd : ℕ) : Moves SameSched (fdArrayFree f fd) :=
  .modify fun s ↦ setFile s f fd _

theorem goodMm (s : Kernel) (p m : ℕ) : SameSched s (s.goodMm p m) :=
  (setMem s _).trans (setLink _ p (fun q ↦ { q with mm := some m, cr3 := some (s.mem.mm m).pgdir })
    (fun _ ↦ rfl) (fun _ ↦ rfl) fun _ ↦ rfl)

theorem mmCreate (s : Kernel) (m pgdir : ℕ) : SameSched s (s.mmCreate m pgdir) :=
  (setMem s _).trans (setMem _ _)

theorem mmPages (s : Kernel) (m : ℕ) (pages lost : Finset ℕ) :
    SameSched s (s.mmPages m pages lost) := (setMem s _).trans (setMem _ _)

theorem mmFree (s : Kernel) (m : ℕ) : SameSched s (s.mmFree m) := (setMem s _).trans (setMem _ _)

theorem filesCreate (s : Kernel) (f page : ℕ) : SameSched s (s.filesCreate f page) :=
  (setMem s _).trans (setMem _ _)

theorem filesFree (s : Kernel) (f : ℕ) : SameSched s (s.filesFree f) :=
  (setMem s _).trans (setMem _ _)

theorem dropMm (s : Kernel) : (dropMm.run s).Sat (fun _ t ↦ SameSched s t) fun _ _ ↦ False := by
  rw [Ucore.dropMm, get_bind_run]
  cases (s.proc s.current).mm with
  | none => exact refl s
  | some m =>
    dsimp only
    rw [modify_bind_run, get_bind_run, modify_bind_run, modify_bind_run, run_pure]
    have hfree : ∀ (c : Prop) [Decidable c] (u : Kernel),
        SameSched u (if c then u.mmFree m else u) := by
      intro c _ u
      split_ifs
      · exact mmFree u m
      · exact refl u
    exact ((setMem s _).trans (hfree _ _)).trans
      (setLink _ _ (fun q ↦ { q with mm := none }) (fun _ ↦ rfl) (fun _ ↦ rfl) fun _ ↦ rfl)

end SameSched

namespace Kernel

variable {s t : Kernel}

theorem ready_congr (hsame : SameSched s t) : t.Ready = s.Ready := by
  funext p
  rw [Ready, Ready, hsame.live, hsame.state, hsame.current, hsame.idleproc]

theorem SchedOk.congr (h : s.SchedOk) (hsame : SameSched s t) : t.SchedOk where
  current_live := by
    rw [hsame.current, hsame.live]
    exact h.current_live
  idle_live := by
    rw [hsame.idleproc, hsame.live]
    exact h.idle_live
  idle_runnable := by
    rw [hsame.idleproc, hsame.state]
    exact h.idle_runnable
  idle_code := by
    rw [hsame.idleproc, hsame.code]
    exact h.idle_code
  shape p := by
    rw [hsame.current, hsame.state, hsame.waitState, hsame.wakeupFlags, hsame.code]
    exact h.shape p
  unused p hp := by
    rw [hsame.state]
    rw [hsame.live] at hp
    exact h.unused p hp
  parent p hp hne := by
    rw [hsame.live] at hp
    rw [hsame.idleproc] at hne
    exact hsame.parent p (h.parent p hp hne)
  queue := by
    rw [ready_congr hsame, hsame.rq]
    exact h.queue
  timers := by
    rw [hsame.timers]
    exact h.timers
  timer t ht := by
    rw [hsame.timers] at ht
    rw [hsame.code]
    exact h.timer t ht
  embryo p q hq := by
    rw [hsame.code] at hq
    rw [hsame.live, hsame.state]
    exact h.embryo p q hq
  embryo_unique p q q' hq hq' := by
    rw [hsame.code] at hq hq'
    exact h.embryo_unique p q q' hq hq'

theorem place_congr (hsame : SameSched s t) : t.place = s.place := by
  funext p
  rw [place, place, hsame.state, hsame.code]

theorem RunOk.congr (h : s.RunOk) (hsame : SameSched s t) : t.RunOk where
  sched := h.sched.congr hsame
  sems := by
    have hsems := h.sems
    rw [SemsOk, place_congr hsame, hsame.sems]
    exact hsems

/-! ## The current process goes on -/

/-- A process in state `PROC_RUNNABLE` waits in no queue. -/
theorem place_of_ne {p : ℕ} (h : (s.proc p).state ≠ .sleeping) : s.place p = none := if_neg h

/-- The current process changes its state and what it has still to do. -/
theorem SchedOk.update (h : s.SchedOk) {f : Proc → Proc} {l : List Section}
    {w : ℕ → BitVec 32} {c : List Timer} {x : ℕ → Sem ℕ}
    (hun : (s.proc s.current).state ≠ .uninit)
    (hidle : s.current = s.idleproc →
      (f (s.proc s.current)).state = .runnable ∧ (l = [] ∨ l = [.schedule]))
    (hpar : (s.proc s.current).parent ≠ none → (f (s.proc s.current)).parent ≠ none)
    (hshape : Shape True (f (s.proc s.current)).state (f (s.proc s.current)).waitState
      (w s.current) l)
    (hflags : ∀ p, p ≠ s.current → w p = s.wakeupFlags p)
    (htimers : ∃ past, TimersOk past c)
    (htimer : ∀ t ∈ c, t.proc = some t.id ∧ AtTimer ((s.setCode s.current l).code t.id))
    (hemb : ∀ p, embryo? l = some p → p ∈ s.live ∧ (s.proc p).state = .uninit ∧
      ∀ q, embryo? (s.code q) = some p → q = s.current) :
    SchedOk { (s.setProc s.current f).setCode s.current l with
      wakeupFlags := w, timers := c, sems := x } := by
  refine ⟨h.current_live, h.idle_live, ?_, ?_, fun p ↦ ?_, fun p hp ↦ ?_, fun p hp hne ↦ ?_,
    h.queue.congr fun p ↦ ?_, htimers, htimer, fun p q hq ↦ ?_, fun p q q' hq hq' ↦ ?_⟩
  · change ((s.setProc s.current f).proc s.idleproc).state = .runnable
    by_cases hc : s.idleproc = s.current
    · rw [hc, setProc_self]
      exact (hidle hc.symm).1
    · rw [setProc_of_ne s hc]
      exact h.idle_runnable
  · change (s.setCode s.current l).code s.idleproc = [] ∨
      (s.setCode s.current l).code s.idleproc = [.schedule]
    by_cases hc : s.idleproc = s.current
    · rw [hc, setCode_self]
      exact (hidle hc.symm).2
    · rw [setCode_of_ne s hc]
      exact h.idle_code
  · change Shape (p = s.current) ((s.setProc s.current f).proc p).state
      ((s.setProc s.current f).proc p).waitState (w p) ((s.setCode s.current l).code p)
    rcases eq_or_ne p s.current with rfl | hp
    · rw [setProc_self, setCode_self]
      exact hshape.congr ⟨fun _ ↦ rfl, fun _ ↦ trivial⟩
    · rw [setProc_of_ne s hp, setCode_of_ne s hp, hflags p hp]
      exact h.shape p
  · change ((s.setProc s.current f).proc p).state = .uninit ∨
      ((s.setProc s.current f).proc p).state = .zombie
    have hne : p ≠ s.current := by
      rintro rfl
      exact hp h.current_live
    rw [setProc_of_ne s hne]
    exact h.unused p hp
  · change ((s.setProc s.current f).proc p).parent ≠ none
    rcases eq_or_ne p s.current with rfl | hpc
    · rw [setProc_self]
      exact hpar (h.parent _ hp hne)
    · rw [setProc_of_ne s hpc]
      exact h.parent p hp hne
  · change s.Ready p ↔ p ∈ s.live ∧ ((s.setProc s.current f).proc p).state = .runnable ∧
      p ≠ s.current ∧ p ≠ s.idleproc
    rcases eq_or_ne p s.current with rfl | hp
    -- the current process is not in the queue, before or after
    · exact ⟨fun hr ↦ absurd rfl hr.2.2.1, fun hr ↦ absurd rfl hr.2.2.1⟩
    · rw [setProc_of_ne s hp]
      exact Iff.rfl
  · change p ∈ s.live ∧ ((s.setProc s.current f).proc p).state = .uninit
    have hp : p ∈ s.live ∧ (s.proc p).state = .uninit := by
      rcases eq_or_ne q s.current with rfl | hne
      · have hl := hemb p ((congrArg embryo? (setCode_self s _ l)).symm.trans hq)
        exact ⟨hl.1, hl.2.1⟩
      · exact h.embryo p q ((congrArg embryo? (setCode_of_ne s hne l)).symm.trans hq)
    have hne : p ≠ s.current := by
      rintro rfl
      exact hun hp.2
    rw [setProc_of_ne s hne]
    exact hp
  · change embryo? ((s.setCode s.current l).code q) = some p at hq
    change embryo? ((s.setCode s.current l).code q') = some p at hq'
    rcases eq_or_ne q s.current with rfl | hne
    · rcases eq_or_ne q' s.current with rfl | hne'
      · rfl
      · rw [setCode_self] at hq
        rw [setCode_of_ne s hne'] at hq'
        exact ((hemb p hq).2.2 q' hq').symm
    · rw [setCode_of_ne s hne] at hq
      rcases eq_or_ne q' s.current with rfl | hne'
      · rw [setCode_self] at hq'
        exact (hemb p hq').2.2 q hq
      · rw [setCode_of_ne s hne'] at hq'
        exact h.embryo_unique p q q' hq hq'

theorem place_update (s : Kernel) {f : Proc → Proc} {l : List Section} {w : ℕ → BitVec 32}
    {c : List Timer} {x : ℕ → Sem ℕ} (hst : (f (s.proc s.current)).state = .sleeping) :
    place { (s.setProc s.current f).setCode s.current l with
      wakeupFlags := w, timers := c, sems := x } =
      Function.update s.place s.current (semOf l) := by
  funext p
  change (if ((s.setProc s.current f).proc p).state = .sleeping then
    semOf ((s.setCode s.current l).code p) else none) = _
  rcases eq_or_ne p s.current with rfl | hp
  · rw [setProc_self, setCode_self, if_pos hst, Function.update_self]
  · rw [setProc_of_ne s hp, setCode_of_ne s hp, Function.update_of_ne hp]
    rfl

/-- A timer of another process is not touched. -/
theorem SchedOk.timer_setCode (h : s.SchedOk) (hold : ¬AtTimer (s.code s.current))
    {l : List Section} :
    ∀ t ∈ s.timers, t.proc = some t.id ∧ AtTimer ((s.setCode s.current l).code t.id) := by
  intro t ht
  refine ⟨(h.timer t ht).1, ?_⟩
  have hne : t.id ≠ s.current := by
    intro heq
    exact hold (heq ▸ (h.timer t ht).2)
  rw [setCode_of_ne s hne]
  exact (h.timer t ht).2

/-- The current process is in state `PROC_RUNNABLE`, and what it has still to do changes, and with
it the list of timers. -/
theorem RunOk.setCodeTimers (h : s.RunOk) {l : List Section} {c : List Timer}
    (hrun : (s.proc s.current).state = .runnable)
    (hzero : (s.proc s.current).waitState = 0) (hl : Tidy l)
    (hidle : s.current = s.idleproc → l = [] ∨ l = [.schedule])
    (htimers : ∃ past, TimersOk past c)
    (htimer : ∀ t ∈ c, t.proc = some t.id ∧ AtTimer ((s.setCode s.current l).code t.id))
    (hemb : ∀ p, embryo? l = some p → p ∈ s.live ∧ (s.proc p).state = .uninit ∧
      ∀ q, embryo? (s.code q) = some p → q = s.current) :
    RunOk { s.setCode s.current l with timers := c } where
  sched := by
    have hid : s.setProc s.current id = s := by
      rw [setProc, id, Function.update_eq_self]
    have hun : (s.proc s.current).state ≠ .uninit := by
      rw [hrun]
      exact ProcState.noConfusion
    have hnew := h.sched.update (f := id) (l := l) (x := s.sems) hun
      (fun hc ↦ ⟨hrun, hidle hc⟩) id (by
        rw [id, hrun, hzero]
        exact .plain hl) (fun _ _ ↦ rfl) htimers htimer hemb
    rw [hid] at hnew
    exact hnew
  sems := by
    have hplace : place { s.setCode s.current l with timers := c } = s.place := by
      funext p
      change (if (s.proc p).state = .sleeping then semOf ((s.setCode s.current l).code p) else none)
        = if (s.proc p).state = .sleeping then semOf (s.code p) else none
      rcases eq_or_ne p s.current with rfl | hp
      · rw [hrun]
        rfl
      · rw [setCode_of_ne s hp]
    rw [SemsOk, hplace]
    exact h.sems

/-- The current process is in state `PROC_RUNNABLE`, and what it has still to do changes. -/
theorem RunOk.setCode (h : s.RunOk) {l : List Section}
    (hrun : (s.proc s.current).state = .runnable)
    (hzero : (s.proc s.current).waitState = 0) (hold : ¬AtTimer (s.code s.current)) (hl : Tidy l)
    (hidle : s.current = s.idleproc → l = [] ∨ l = [.schedule])
    (hemb : ∀ p, embryo? l = some p → p ∈ s.live ∧ (s.proc p).state = .uninit ∧
      ∀ q, embryo? (s.code q) = some p → q = s.current) :
    (s.setCode s.current l).RunOk :=
  h.setCodeTimers hrun hzero hl hidle h.sched.timers (h.sched.timer_setCode hold) hemb

end Kernel

/-! ## Waking a process -/

section Wakeup

variable {cur : Prop} {w f : BitVec 32} {l : List Section}

/-- A sleeping process is woken, by an `up` if it is in `down`. -/
theorem Shape.wake (h : Shape cur .sleeping w f l) (hw : w ≠ 0)
    (hf : ∀ k, semOf l = some k → f = wtKsem) : Shape cur .runnable 0 f l := by
  cases h with
  | drowsy _ => exact absurd rfl hw
  | going hcur hr hl =>
    refine .early hcur hr ?_ hl
    rintro k rfl
    exact hf k rfl
  | asleep _ hr hl =>
    refine .woken hr ?_ hl
    rintro k rfl
    exact hf k rfl

/-- A sleeping process does not look at its wait entry. -/
theorem Shape.setFlags (h : Shape cur .sleeping w f l) (f' : BitVec 32) :
    Shape cur .sleeping w f' l := by
  cases h with
  | drowsy hcur => exact .drowsy hcur
  | going hcur hr hl => exact .going hcur hr hl
  | asleep hnot hr hl => exact .asleep hnot hr hl

/-- A process in `do_sleep` has the flag for that until it is woken. -/
theorem Shape.of_atTimer {st : ProcState} (h : Shape cur st w f l) (hl : AtTimer l) :
    st = .runnable ∨ w = wtTimer := by
  cases h with
  | plain _ | woken _ _ _ | early _ _ _ _ => exact .inl rfl
  | @going _ _ r _ _ hr _ =>
    cases r with
    | sleepRet => exact .inr (Option.some.inj hr).symm
    | downRet _ | waitRet _ => exact absurd hl id
    | _ => cases hr
  | @asleep _ _ r l _ hr _ =>
    cases r with
    | sleepRet => exact .inr (Option.some.inj hr).symm
    | downRet _ | waitRet _ => exact absurd hl id
    | _ => cases hr
  | uninit _ | drowsy _ | telling _ | dying _ | dead _ => exact absurd hl id

/-- A process that waits for a semaphore has the flag for that. -/
theorem Shape.wtKsem_of_semOf {k : ℕ} (h : Shape cur .sleeping w f l) (hl : semOf l = some k) :
    w = wtKsem := by
  cases h with
  | drowsy _ => cases hl
  | @going _ _ r _ _ hr _ =>
    cases r with
    | downRet _ => exact (Option.some.inj hr).symm
    | sleepRet | waitRet _ => cases hl
    | _ => cases hr
  | @asleep _ _ r l _ hr _ =>
    cases r with
    | downRet _ => exact (Option.some.inj hr).symm
    | sleepRet | waitRet _ => cases hl
    | _ => cases hr

end Wakeup

namespace Kernel

variable {s : Kernel} {p : ℕ}

/-- The state after a wakeup: the process is runnable, and in the queue unless it is running. -/
theorem wakeup_eq (s : Kernel) (p : ℕ) : ∃ (f : Proc → Proc) (slice : Proc → ℕ) (rq : RunQueue),
    s.wakeup p = (s.setProc p f).setRq rq ∧
    (∀ q, f q = { q with state := .runnable, waitState := 0, timeSlice := slice q }) ∧
    ∀ A, s.rq.Holds A → ¬A p →
      rq.Holds fun q ↦ (q = p ∧ p ≠ s.current ∧ p ≠ s.idleproc) ∨ A q := by
  rw [wakeup]
  by_cases hcur : p = s.current
  · refine ⟨_, Proc.timeSlice, s.rq, ?_, fun _ ↦ rfl, fun A hA _ ↦ hA.congr fun q ↦ ?_⟩
    · rw [if_neg (not_not.mpr hcur)]
      rfl
    · exact ⟨.inr, fun hq ↦ hq.resolve_left fun hp ↦ hp.2.1 hcur⟩
  · rw [if_pos hcur]
    by_cases hidle : p = s.idleproc
    · refine ⟨_, Proc.timeSlice, s.rq, ?_, fun _ ↦ rfl, fun A hA _ ↦ hA.congr fun q ↦ ?_⟩
      · rw [schedClassEnqueue_of_eq (s := s.setProc p _) hidle]
        rfl
      · exact ⟨.inr, fun hq ↦ hq.resolve_left fun hp ↦ hp.2.2 hidle⟩
    · rw [schedClassEnqueue_of_ne (s := s.setProc p _) hidle, strideEnqueue, setProc_setProc]
      refine ⟨_, _, _, rfl, fun _ ↦ rfl, fun A hA hp ↦ ?_⟩
      have hholds := strideEnqueue_holds
        (s := s.setProc p fun q ↦ { q with state := .runnable, waitState := 0 }) hA hp
      refine RunQueue.Holds.congr hholds fun q ↦ ?_
      exact or_congr_left ⟨fun hq ↦ ⟨hq, hcur, hidle⟩, And.left⟩

theorem SchedOk.wakeup (h : s.SchedOk) (hlive : p ∈ s.live) (hst : (s.proc p).state ≠ .runnable)
    (hshape : Shape (p = s.current) .runnable 0 (s.wakeupFlags p) (s.code p))
    (hemb : ∀ q, embryo? (s.code q) ≠ some p) : (s.wakeup p).SchedOk := by
  obtain ⟨f, slice, rq, heq, hf, hrq⟩ := wakeup_eq s p
  have hnot : ¬s.Ready p := fun hready ↦ hst hready.2.1
  rw [heq]
  refine ⟨h.current_live, h.idle_live, ?_, h.idle_code, fun q ↦ ?_, fun q hq ↦ ?_,
    fun q hq hne ↦ ?_, (hrq _ h.queue hnot).congr fun q ↦ ?_, h.timers, h.timer,
    fun r q hq ↦ ⟨(h.embryo r q hq).1, ?_⟩, h.embryo_unique⟩
  · have hne : s.idleproc ≠ p := by
      rintro rfl
      exact hst h.idle_runnable
    change ((s.setProc p f).proc s.idleproc).state = .runnable
    rw [setProc_of_ne s hne]
    exact h.idle_runnable
  · change Shape (q = s.current) ((s.setProc p f).proc q).state ((s.setProc p f).proc q).waitState
      (s.wakeupFlags q) (s.code q)
    rcases eq_or_ne q p with rfl | hq
    · rw [setProc_self, hf]
      exact hshape
    · rw [setProc_of_ne s hq]
      exact h.shape q
  · have hne : q ≠ p := by
      rintro rfl
      exact hq hlive
    change ((s.setProc p f).proc q).state = .uninit ∨ ((s.setProc p f).proc q).state = .zombie
    rw [setProc_of_ne s hne]
    exact h.unused q hq
  · change ((s.setProc p f).proc q).parent ≠ none
    rcases eq_or_ne q p with rfl | hqp
    · rw [setProc_self, hf]
      exact h.parent q hq hne
    · rw [setProc_of_ne s hqp]
      exact h.parent q hq hne
  · change _ ∨ s.Ready q ↔ q ∈ s.live ∧ ((s.setProc p f).proc q).state = .runnable ∧
      q ≠ s.current ∧ q ≠ s.idleproc
    rcases eq_or_ne q p with rfl | hqp
    · rw [setProc_self, hf]
      constructor
      · intro hq
        exact ⟨hlive, rfl, (hq.resolve_right hnot).2⟩
      · intro hq
        exact .inl ⟨rfl, hq.2.2⟩
    · rw [setProc_of_ne s hqp]
      exact ⟨fun hq ↦ hq.resolve_left fun hp ↦ hqp hp.1, .inr⟩
  · have hne : r ≠ p := by
      rintro rfl
      exact hemb q hq
    change ((s.setProc p f).proc r).state = .uninit
    rw [setProc_of_ne s hne]
    exact (h.embryo r q hq).2

theorem place_wakeup (s : Kernel) (p : ℕ) :
    (s.wakeup p).place = Function.update s.place p none := by
  obtain ⟨f, slice, rq, heq, hf, -⟩ := wakeup_eq s p
  rw [heq]
  funext q
  rcases eq_or_ne q p with rfl | hq
  · rw [Function.update_self]
    refine place_of_ne ?_
    change ((s.setProc q f).proc q).state ≠ .sleeping
    rw [setProc_self, hf]
    exact ProcState.noConfusion
  · rw [Function.update_of_ne hq, place, place]
    change (if ((s.setProc p f).proc q).state = .sleeping then semOf (s.code q) else none) = _
    rw [setProc_of_ne s hq]

theorem code_wakeup (s : Kernel) (p : ℕ) : (s.wakeup p).code = s.code := by
  obtain ⟨f, slice, rq, heq, -⟩ := wakeup_eq s p
  rw [heq]
  rfl

theorem sems_wakeup (s : Kernel) (p : ℕ) : (s.wakeup p).sems = s.sems := by
  obtain ⟨f, slice, rq, heq, -⟩ := wakeup_eq s p
  rw [heq]
  rfl

/-- A process that sleeps, but not for a semaphore, is woken. -/
theorem RunOk.wakeup (h : s.RunOk) (hw : (s.proc p).waitState ≠ 0)
    (hne : (s.proc p).waitState ≠ wtKsem) : (s.wakeup p).RunOk := by
  have hst : (s.proc p).state = .sleeping := (h.sched.shape p).sleeping_of_ne_zero hw
  have hlive : p ∈ s.live := by
    by_contra hdead
    rcases h.sched.unused p hdead with hp | hp <;> rw [hst] at hp <;> cases hp
  have hshape := h.sched.shape p
  rw [hst] at hshape
  have hsem : ∀ k, semOf (s.code p) ≠ some k := fun k hk ↦ hne (hshape.wtKsem_of_semOf hk)
  refine ⟨h.sched.wakeup hlive ?_ (hshape.wake hw fun k hk ↦ absurd hk (hsem k)) fun q hq ↦ ?_, ?_⟩
  · rw [hst]
    exact ProcState.noConfusion
  · have hp := (h.sched.embryo p q hq).2
    rw [hst] at hp
    cases hp
  · have hplace : s.place p = none := by
      rw [place, if_pos hst]
      exact Option.eq_none_iff_forall_not_mem.mpr hsem
    rw [SemsOk, place_wakeup, sems_wakeup]
    exact h.sems.stay hplace

/-- `wakeup_proc` on a process that is runnable already or sleeps, but not for a semaphore. -/
theorem RunOk.wakeupProc (h : s.RunOk) (hp : (s.proc p).state = .runnable ∨
    (s.proc p).waitState ≠ 0 ∧ (s.proc p).waitState ≠ wtKsem) :
    ∃ t, (wakeupProc p).run s = .ok () t ∧ t.RunOk ∧ (t = s ∨ t = s.wakeup p) := by
  rcases hp with hrun | ⟨hw, hne⟩
  · have hz : (s.proc p).state ≠ .zombie := by
      rw [hrun]
      exact ProcState.noConfusion
    refine ⟨s, ?_, h, .inl rfl⟩
    rw [run_wakeupProc hz, if_neg (not_not.mpr hrun)]
  · have hst := (h.sched.shape p).sleeping_of_ne_zero hw
    have hz : (s.proc p).state ≠ .zombie := by
      rw [hst]
      exact ProcState.noConfusion
    have hr : (s.proc p).state ≠ .runnable := by
      rw [hst]
      exact ProcState.noConfusion
    refine ⟨s.wakeup p, ?_, h.wakeup hw hne, .inr rfl⟩
    rw [run_wakeupProc hz, if_pos hr]

end Kernel

/-! ## Switching -/

section Switch

variable {cur cur' : Prop} {st : ProcState} {w f : BitVec 32} {l rest : List Section}

/-- A runnable process that was not on the processor may be put there. -/
theorem Shape.switch (h : Shape cur .runnable w f l) (hnot : ¬cur) :
    Shape cur' .runnable w f l := by
  cases h with
  | plain hl => exact .plain hl
  | woken hr hf hl => exact .woken hr hf hl
  | early hcur _ _ _ => exact absurd hcur hnot

/-- The process that called `schedule` leaves the processor, unless it is picked again. -/
theorem Shape.afterSchedule (h : Shape cur st w f (.schedule :: rest)) (hcur : cur)
    (hc : st ≠ .runnable → ¬cur') : Shape cur' st w f rest := by
  cases h with
  | plain hl => exact .plain hl.tail
  | woken hr _ _ => cases hr
  | early _ hr hf hl => exact .woken hr hf hl
  | going _ hr hl => exact .asleep (hc ProcState.noConfusion) hr hl
  | asleep hnot _ _ => exact absurd hcur hnot
  | dying _ => exact .dead (hc ProcState.noConfusion)

theorem Shape.semOf_tail (h : Shape cur .sleeping w f (.schedule :: rest)) :
    semOf (.schedule :: rest) = semOf rest := by
  cases h with
  | @going _ _ r _ _ hr _ =>
    cases r with
    | downRet _ | sleepRet | waitRet _ => rfl
    | _ => cases hr
  | asleep _ hr _ => cases hr

theorem AtTimer.tail (h : AtTimer (.schedule :: rest)) : AtTimer rest := by
  cases rest with
  | nil => exact absurd h id
  | cons r l =>
    cases r with
    | sleepRet => trivial
    | _ => exact absurd h id

theorem embryo?_schedule (rest : List Section) : embryo? (.schedule :: rest) = embryo? rest := by
  by_cases hrest : rest = []
  · rw [hrest]
    rfl
  · exact embryo?_cons_of_ne _ hrest

end Switch

namespace Kernel

variable {s t : Kernel} {A : ℕ → Prop} {rest : List Section}

/-- After the first half of `schedule` the queue also holds the running process if that can run. -/
theorem requeue_eq (s : Kernel) : ∃ (t : Kernel) (rq : RunQueue), s.requeue = t.setRq rq ∧
    SameSched s t ∧ ∀ A, s.rq.Holds A → ¬A s.current → rq.Holds fun q ↦
      (q = s.current ∧ (s.proc q).state = .runnable ∧ q ≠ s.idleproc) ∨ A q := by
  have hsame : SameSched s (s.setProc s.current fun q ↦ { q with needResched := false }) :=
    SameSched.setProc s s.current (fun _ ↦ rfl) (fun _ ↦ rfl) fun _ ↦ id
  rw [requeue]
  by_cases hrun : (s.proc s.current).state = .runnable
  · rw [if_pos hrun]
    by_cases hidle : s.current = s.idleproc
    · rw [schedClassEnqueue_of_eq (s := s.setProc s.current _) hidle]
      refine ⟨_, s.rq, rfl, hsame, fun A hA _ ↦ hA.congr fun q ↦ ⟨.inr, fun hq ↦ ?_⟩⟩
      refine hq.resolve_left ?_
      rintro ⟨rfl, -, hne⟩
      exact hne hidle
    · rw [schedClassEnqueue_of_ne (s := s.setProc s.current _) hidle]
      refine ⟨_, _, rfl, hsame.trans (SameSched.setProc _ s.current (fun _ ↦ rfl) (fun _ ↦ rfl)
        fun _ ↦ id), fun A hA hcur ↦ ?_⟩
      have hholds := strideEnqueue_holds
        (s := s.setProc s.current fun q ↦ { q with needResched := false }) hA hcur
      refine RunQueue.Holds.congr hholds fun q ↦ or_congr_left ⟨?_, And.left⟩
      rintro rfl
      exact ⟨rfl, hrun, hidle⟩
  · rw [if_neg hrun]
    refine ⟨_, s.rq, rfl, hsame, fun A hA _ ↦ hA.congr fun q ↦ ⟨.inr, fun hq ↦ ?_⟩⟩
    refine hq.resolve_left ?_
    rintro ⟨rfl, hq, -⟩
    exact hrun hq

/-- The second half of `schedule` takes a process out of the queue, or the idle process if there is
none. -/
theorem switch_eq (s : Kernel) : ∃ (next : ℕ) (rq : RunQueue) (t : Kernel),
    s.switch = t.setCurrent next rq ∧ SameSched s t ∧ ∀ A, s.rq.Holds A →
      (A next ∨ next = s.idleproc) ∧ rq.Holds fun q ↦ A q ∧ q ≠ next := by
  rw [switch]
  cases hroot : s.rq.pool.root with
  | none =>
    refine ⟨s.idleproc, s.rq, s, rfl, .refl s, fun A hA ↦ ⟨.inr rfl, hA.congr fun q ↦ ?_⟩⟩
    have hnot : ¬A q := by
      intro hq
      have hmem := (hA.mem_iff q).mpr hq
      rw [SkewHeap.root_eq_none_iff.mp hroot] at hmem
      exact List.not_mem_nil hmem
    exact ⟨fun hq ↦ absurd hq hnot, And.left⟩
  | some next =>
    refine ⟨next, _, _, rfl, SameSched.setProc s next (fun _ ↦ rfl) (fun _ ↦ rfl) fun _ ↦ id,
      fun A hA ↦ ⟨.inl ((hA.mem_iff next).mp (SkewHeap.mem_of_root hroot)), ?_⟩⟩
    exact strideDequeue_holds (s := s.setProc next _) hA hroot

/-- The state after `schedule`, up to what the scheduler does not look at. -/
theorem schedule_eq (s : Kernel) (hcur : ¬s.Ready s.current) (hq : s.rq.Holds s.Ready)
    (hlive : s.current ∈ s.live) : ∃ (next : ℕ) (rq : RunQueue),
    SameSched (s.setCurrent next rq) s.schedule ∧
      (next = s.idleproc ∨ next ∈ s.live ∧ (s.proc next).state = .runnable) ∧
      rq.Holds fun q ↦ q ∈ s.live ∧ (s.proc q).state = .runnable ∧ q ≠ next ∧ q ≠ s.idleproc := by
  obtain ⟨t, rq, hrequeue, hsame, hholds⟩ := requeue_eq s
  obtain ⟨next, rq', u, hswitch, hsame', hholds'⟩ := switch_eq (t.setRq rq)
  have hall := (hholds _ hq hcur).congr (B := fun q ↦ q ∈ s.live ∧ (s.proc q).state = .runnable ∧
      q ≠ s.idleproc) fun q ↦ by
    constructor
    · rintro (⟨rfl, hrun, hidle⟩ | hready)
      · exact ⟨hlive, hrun, hidle⟩
      · exact ⟨hready.1, hready.2.1, hready.2.2.2⟩
    · rintro ⟨hq, hrun, hidle⟩
      by_cases hcq : q = s.current
      · exact .inl ⟨hcq, hrun, hidle⟩
      · exact .inr ⟨hq, hrun, hcq, hidle⟩
  obtain ⟨hnext, hrest⟩ := hholds' _ hall
  refine ⟨next, rq', ?_, ?_, hrest.congr fun q ↦ ?_⟩
  · rw [schedule, hrequeue, hswitch]
    exact (hsame.setCurrent next rq').trans (hsame'.setCurrent next rq')
  · rcases hnext with ⟨hl, hrun, -⟩ | hidle
    · exact .inr ⟨hl, hrun⟩
    · exact .inl (hidle.trans hsame.idleproc)
  · constructor
    · rintro ⟨⟨hl, hrun, hidle⟩, hne⟩
      exact ⟨hl, hrun, hne, hidle⟩
    · rintro ⟨hl, hrun, hne, hidle⟩
      exact ⟨⟨hl, hrun, hidle⟩, hne⟩

/-- The current process calls `schedule`, and runs on behind that call when it is picked again. -/
theorem RunOk.schedule (h : s.RunOk) (hcode : s.code s.current = .schedule :: rest) :
    (s.setCode s.current rest).schedule.RunOk := by
  have hs := h.sched
  have hshape := hs.shape s.current
  rw [hcode] at hshape
  obtain ⟨next, rq, hsame, hnext, hrq⟩ := schedule_eq (s.setCode s.current rest)
    (fun hready ↦ hready.2.2.1 rfl) hs.queue hs.current_live
  refine RunOk.congr ?_ hsame
  have hrun : (s.proc next).state = .runnable := by
    rcases hnext with rfl | ⟨-, hrun⟩
    · exact hs.idle_runnable
    · exact hrun
  have hcode_of : ∀ q, q ≠ s.current → (s.setCode s.current rest).code q = s.code q :=
    fun q hq ↦ setCode_of_ne s hq _
  -- a call of `schedule` is not about an embryo
  have hembryo : ∀ q, embryo? ((s.setCode s.current rest).code q) = embryo? (s.code q) := by
    intro q
    rcases eq_or_ne q s.current with rfl | hq
    · rw [setCode_self, hcode, embryo?_schedule]
    · rw [hcode_of q hq]
  refine ⟨⟨?_, hs.idle_live, hs.idle_runnable, ?_, fun p ↦ ?_, hs.unused, hs.parent, hrq, hs.timers,
    fun t ht ↦ ⟨(hs.timer t ht).1, ?_⟩, fun p q hq ↦ ?_, fun p q q' hq hq' ↦ ?_⟩, ?_⟩
  · rcases hnext with rfl | ⟨hlive, -⟩
    · exact hs.idle_live
    · exact hlive
  · change (s.setCode s.current rest).code s.idleproc = [] ∨
      (s.setCode s.current rest).code s.idleproc = [.schedule]
    by_cases hc : s.idleproc = s.current
    · rw [hc, setCode_self]
      have hidle := hs.idle_code
      rw [hc, hcode] at hidle
      rcases hidle with hidle | hidle
      · cases hidle
      · exact .inl (List.cons.inj hidle).2
    · rw [hcode_of _ hc]
      exact hs.idle_code
  · change Shape (p = next) (s.proc p).state (s.proc p).waitState (s.wakeupFlags p)
      ((s.setCode s.current rest).code p)
    rcases eq_or_ne p s.current with rfl | hp
    · rw [setCode_self]
      refine hshape.afterSchedule rfl ?_
      rintro hne rfl
      exact hne hrun
    · rw [hcode_of p hp]
      -- the one that was picked can run; the others are not current before or after
      rcases eq_or_ne p next with rfl | hpn
      · have hp' := hs.shape p
        rw [hrun] at hp' ⊢
        exact hp'.switch hp
      · exact (hs.shape p).congr ⟨fun heq ↦ absurd heq hp, fun heq ↦ absurd heq hpn⟩
  · change AtTimer ((s.setCode s.current rest).code t.id)
    have ht' := (hs.timer t ht).2
    rcases eq_or_ne t.id s.current with hid | hid
    · rw [hid, setCode_self]
      rw [hid, hcode] at ht'
      exact ht'.tail
    · rw [hcode_of _ hid]
      exact ht'
  · exact hs.embryo p q ((hembryo q).symm.trans hq)
  · exact hs.embryo_unique p q q' ((hembryo q).symm.trans hq) ((hembryo q').symm.trans hq')
  · have hplace : ((s.setCode s.current rest).setCurrent next rq).place = s.place := by
      -- a process that sleeps in a call of `down` still does behind `schedule`
      funext p
      change (if (s.proc p).state = .sleeping then semOf ((s.setCode s.current rest).code p)
        else none) = if (s.proc p).state = .sleeping then semOf (s.code p) else none
      rcases eq_or_ne p s.current with rfl | hp
      · rw [setCode_self, hcode]
        by_cases hst : (s.proc s.current).state = .sleeping
        · rw [hst] at hshape
          rw [hshape.semOf_tail]
        · rw [if_neg hst, if_neg hst]
      · rw [hcode_of p hp]
    rw [SemsOk, hplace]
    exact h.sems

end Kernel

end Ucore
