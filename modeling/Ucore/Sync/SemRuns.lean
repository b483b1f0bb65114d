import Ucore.Lib.WaitQueue
import Ucore.Proc.Kernel

/-!
# Semaphores over whole runs

One semaphore and the processes of `P` that use it, with `__up`, `__down` and `try_down` of
`kern/sync/sem.c` as they go through the `wait_t` of a waiter, and `do_kill` next to them. A call of
`__down` that has to wait is two steps, since other processes run while it is in `schedule`; every
other call is one, with interrupts off. An operation answers `none` where an assertion fails.

## The log

What has happened is written down in a log that no operation reads: the calls of `up`, the units
granted, who joined the queue, who left it, and who was handed a unit. Correctness is about the log
(`SemState.Correct`): every unit is in the value or was granted, units go to those who wait in the
order in which they came, and a process leaves the queue only by being handed one.

## The invariant

`SemState.Ok` says that the queue holds the processes whose `wait_link` is in it, that these sleep
with the flag `WT_KSEM`, and that a waiter that has left the queue was woken with that flag. No
process waits for a semaphore in a state that `do_kill` may interrupt, so a waiter leaves the queue
in no other way than by the `up` that hands it a unit. The value wraps around at the largest `int`;
the log counts how often.
-/

namespace Ucore

/-- `wait_t` of a process that is in `__down`: its `wakeup_flags`, and whether its `wait_link` is in
the queue. There is one queue, so `wait_queue` is not kept. -/
structure Wait where
  wakeupFlags : BitVec 32
  linked : Bool
  deriving DecidableEq, Repr

/-- What has happened to a semaphore; no operation reads it. The lists are in the order in which
things happened. -/
structure SemLog (P : Type) where
  /-- The calls of `up` that have returned. -/
  ups : ℕ
  /-- How often `value ++` went from `intMax` to the least `int`. -/
  wraps : ℕ
  /-- The units that `down` and `try_down` took and that `up` handed to waiters. -/
  granted : ℕ
  /-- The processes whose `wait_t` was put in the queue. -/
  joined : List P
  /-- The processes whose `wait_t` was taken out of the queue. -/
  left : List P
  /-- The processes that were handed a unit. -/
  handed : List P

/-- A semaphore, the fields of the processes that its operations and `do_kill` use, and the `wait_t`
of every process that is in `__down`. -/
structure SemState (P : Type) where
  sem : Sem P
  wait : P → Option Wait
  state : P → ProcState
  waitState : P → BitVec 32
  exiting : P → Bool
  log : SemLog P

/-- The queue a `wait_t` is in. -/
def Wait.place (w : Wait) : Option Unit := if w.linked then some () else none

namespace SemState

variable {P : Type} [DecidableEq P]

/-- `sem_init`, with no process in `__down`. -/
def init (value : ℤ) (state : P → ProcState) (waitState : P → BitVec 32) (exiting : P → Bool) :
    SemState P where
  sem := .init value
  wait _ := none
  state := state
  waitState := waitState
  exiting := exiting
  log := ⟨0, 0, 0, [], [], []⟩

def wakeupProc (s : SemState P) (p : P) : Option (SemState P) :=
  if s.state p = .zombie then none
  else if s.state p ≠ .runnable then
    some { s with
      state := Function.update s.state p .runnable
      waitState := Function.update s.waitState p 0 }
  else some s

def waitQueueAdd (s : SemState P) (p : P) (w : Wait) : Option (SemState P) :=
  if w.linked then none
  else some { s with
    sem := { s.sem with queue := s.sem.queue ++ [p] }
    wait := Function.update s.wait p (some { w with linked := true })
    log := { s.log with joined := s.log.joined ++ [p] } }

def waitQueueDel (s : SemState P) (p : P) (w : Wait) : Option (SemState P) :=
  if w.linked then
    some { s with
      sem := { s.sem with queue := s.sem.queue.erase p }
      wait := Function.update s.wait p (some { w with linked := false })
      log := { s.log with left := s.log.left ++ [p] } }
  else none

/-- `wait_current_set`, with `wait_init`. -/
def waitCurrentSet (s : SemState P) (p : P) (waitState : BitVec 32) : Option (SemState P) :=
  ({ s with
    state := Function.update s.state p .sleeping
    waitState := Function.update s.waitState p waitState } : SemState P).waitQueueAdd p
      ⟨wtInterrupted, false⟩

def wakeupWait (s : SemState P) (p : P) (w : Wait) (flags : BitVec 32) (del : Bool) :
    Option (SemState P) :=
  (if del then s.waitQueueDel p w else some s).bind fun s ↦
    ({ s with
      wait := Function.update s.wait p ((s.wait p).map fun w ↦ { w with wakeupFlags := flags })
    } : SemState P).wakeupProc p

/-- `__up`. -/
def upWith (s : SemState P) (waitState : BitVec 32) : Option (SemState P) :=
  match s.sem.queue with
  | [] => some { s with
      sem := { s.sem with value := incInt s.sem.value }
      log := { s.log with
        ups := s.log.ups + 1
        wraps := s.log.wraps + if s.sem.value = intMax then 1 else 0 } }
  | p :: _ =>
    if s.waitState p = waitState then
      (s.wait p).bind fun w ↦ (s.wakeupWait p w waitState true).map fun s ↦ { s with
        log := { s.log with
          ups := s.log.ups + 1
          granted := s.log.granted + 1
          handed := s.log.handed ++ [p] } }
    else none

/-- A unit is taken from the value. -/
def take (s : SemState P) : SemState P :=
  { s with
    sem := { s.sem with value := s.sem.value - 1 }
    log := { s.log with granted := s.log.granted + 1 } }

/-- `__down` by process `p`, up to its call of `schedule`. -/
def downWith (s : SemState P) (p : P) (waitState : BitVec 32) : Option (SemState P) :=
  if 0 < s.sem.value then some s.take else s.waitCurrentSet p waitState

/-- `__down` by process `p` from the return of `schedule` on, and what it returns. -/
def downRetWith (s : SemState P) (p : P) (w : Wait) (waitState : BitVec 32) :
    Option (SemState P × BitVec 32) :=
  (if w.linked then s.waitQueueDel p w else some s).map fun s ↦
    ({ s with wait := Function.update s.wait p none },
      if w.wakeupFlags ≠ waitState then w.wakeupFlags else 0)

def up (s : SemState P) : Option (SemState P) := s.upWith wtKsem

/-- `down` by process `p`, up to the call of `schedule`. -/
def down (s : SemState P) (p : P) : Option (SemState P) := s.downWith p wtKsem

/-- `down` by process `p`, from there on. -/
def downRet (s : SemState P) (p : P) : Option (SemState P) :=
  (s.wait p).bind fun w ↦ (s.downRetWith p w wtKsem).bind fun r ↦
    if r.2 = 0 then some r.1 else none

def tryDown (s : SemState P) : SemState P := if 0 < s.sem.value then s.take else s

def doKill (s : SemState P) (p : P) : Option (SemState P) :=
  if s.exiting p then some s
  else
    let s := { s with exiting := Function.update s.exiting p true }
    if s.waitState p &&& wtInterrupted ≠ 0 then s.wakeupProc p else some s

/-- What the rest of the kernel does to a process that is not in `__down`. -/
def other (s : SemState P) (p : P) (state : ProcState) (waitState : BitVec 32) (exiting : Bool) :
    SemState P :=
  { s with
    state := Function.update s.state p state
    waitState := Function.update s.waitState p waitState
    exiting := Function.update s.exiting p exiting }

end SemState

/-- A step of the kernel, as far as the semaphore is concerned. -/
inductive SemCall (P : Type)
  | up
  | down (p : P)
  | downRet (p : P)
  | tryDown
  | kill (p : P)
  | other (p : P) (state : ProcState) (waitState : BitVec 32) (exiting : Bool)

variable {P : Type} [DecidableEq P]

/-- The step can be taken: `schedule` goes on with a process only if it is runnable. -/
def SemCall.Enabled (s : SemState P) : SemCall P → Prop
  | .up | .tryDown | .kill _ => True
  | .down p => s.wait p = none ∧ s.state p = .runnable
  | .downRet p => s.wait p ≠ none ∧ s.state p = .runnable
  | .other p _ _ _ => s.wait p = none

/-- The state after a step, if no assertion fails. -/
def SemState.call (s : SemState P) : SemCall P → Option (SemState P)
  | .up => s.up
  | .down p => s.down p
  | .downRet p => s.downRet p
  | .tryDown => some s.tryDown
  | .kill p => s.doKill p
  | .other p state waitState exiting => some (s.other p state waitState exiting)

/-- The states that steps lead to after `sem_init`, in any order. -/
inductive SemReach (value : ℤ) : SemState P → Prop
  | init (state : P → ProcState) (waitState : P → BitVec 32) (exiting : P → Bool) :
      SemReach value (.init value state waitState exiting)
  | call {s s' : SemState P} {c : SemCall P} (h : SemReach value s) (hc : c.Enabled s)
      (hs : s.call c = some s') : SemReach value s'

/-! ## The invariant -/

/-- What holds of every state that is reached from the initial value `v`. -/
structure SemState.Ok (v : ℤ) (s : SemState P) : Prop where
  agree : WaitQueue.Agree (fun _ : Unit ↦ s.sem.queue) fun p ↦ (s.wait p).bind Wait.place
  empty : 0 < s.sem.value → s.sem.queue = []
  asleep : ∀ p ∈ s.sem.queue, s.state p = .sleeping ∧ s.waitState p = wtKsem
  woken : ∀ p w, s.wait p = some w → w.linked = false → w.wakeupFlags = wtKsem
  balance : v + s.log.ups = s.sem.value + s.log.granted + 2 ^ 32 * s.log.wraps
  nonneg : 0 ≤ v → s.log.wraps = 0 → 0 ≤ s.sem.value
  order : s.log.joined = s.log.left ++ s.sem.queue
  handed : s.log.handed = s.log.left

section Invariant

variable {v : ℤ} {s s' : SemState P} {p : P}

/-- The places of the processes after one `wait_t` was replaced. -/
theorem place_update (wait : P → Option Wait) (p : P) (new : Option Wait) :
    (fun q ↦ (Function.update wait p new q).bind Wait.place) =
      Function.update (fun q ↦ (wait q).bind Wait.place) p (new.bind Wait.place) :=
  funext fun q ↦ Function.apply_update (fun _ w ↦ Option.bind w Wait.place) wait p new q

omit [DecidableEq P] in
theorem queue_update_unit (queue new : List P) :
    Function.update (fun _ : Unit ↦ queue) () new = fun _ ↦ new :=
  Function.update_eq_const_of_subsingleton () new _

theorem wtKsem_not_interrupted : wtKsem &&& wtInterrupted = 0 := rfl

namespace SemState.Ok

omit [DecidableEq P] in
theorem nodup (h : s.Ok v) : s.sem.queue.Nodup := h.agree.nodup ()

omit [DecidableEq P] in
theorem mem_iff (h : s.Ok v) (p : P) :
    p ∈ s.sem.queue ↔ ∃ w, s.wait p = some w ∧ w.linked = true := by
  rw [h.agree.mem_iff () p, Option.bind_eq_some_iff]
  refine exists_congr fun w ↦ and_congr_right fun _ ↦ ?_
  rw [Wait.place]
  split_ifs with hl
  · exact iff_of_true rfl hl
  · exact iff_of_false id hl

omit [DecidableEq P] in
theorem notMem (h : s.Ok v) (hp : s.wait p = none) : p ∉ s.sem.queue := by
  rw [h.mem_iff, hp]
  rintro ⟨w, hw, -⟩
  cases hw

omit [DecidableEq P] in
theorem place_eq_none (hp : s.wait p = none) : (s.wait p).bind Wait.place = none := by
  rw [hp, Option.bind_none]

/-- The rest of the kernel may do anything to a process that is not in the queue. -/
theorem setProc (h : s.Ok v) (hp : p ∉ s.sem.queue) (state : ProcState) (waitState : BitVec 32)
    (exiting : P → Bool) :
    ({ s with
      state := Function.update s.state p state
      waitState := Function.update s.waitState p waitState
      exiting := exiting } : SemState P).Ok v where
  agree := h.agree
  empty := h.empty
  asleep q hq := by
    have hne : q ≠ p := by
      rintro rfl
      exact hp hq
    dsimp only
    rw [Function.update_of_ne hne, Function.update_of_ne hne]
    exact h.asleep q hq
  woken := h.woken
  balance := h.balance
  nonneg := h.nonneg
  order := h.order
  handed := h.handed

omit [DecidableEq P] in
/-- Nor does the semaphore depend on who is being killed. -/
theorem setExiting (h : s.Ok v) (exiting : P → Bool) : ({ s with exiting } : SemState P).Ok v where
  agree := h.agree
  empty := h.empty
  asleep := h.asleep
  woken := h.woken
  balance := h.balance
  nonneg := h.nonneg
  order := h.order
  handed := h.handed

end SemState.Ok

omit [DecidableEq P] in
theorem SemState.init_ok (v : ℤ) (state : P → ProcState) (waitState : P → BitVec 32)
    (exiting : P → Bool) : (SemState.init v state waitState exiting).Ok v where
  agree := .of_nil
  empty _ := rfl
  asleep p hp := absurd hp List.not_mem_nil
  woken p w hw := by cases hw
  balance := by
    rw [SemState.init]
    dsimp only [Sem.init]
    push_cast
    ring
  nonneg hv _ := hv
  order := rfl
  handed := rfl

/-! ## What the operations do -/

namespace SemState

/-- `up` when nobody waits. -/
def raised (s : SemState P) : SemState P :=
  { s with
    sem := { s.sem with value := incInt s.sem.value }
    log := { s.log with
      ups := s.log.ups + 1
      wraps := s.log.wraps + if s.sem.value = intMax then 1 else 0 } }

/-- `up` when `p` waits in front of `queue`. -/
def handedTo (s : SemState P) (p : P) (queue : List P) : SemState P where
  sem := { s.sem with queue }
  wait := Function.update s.wait p (some ⟨wtKsem, false⟩)
  state := Function.update s.state p .runnable
  waitState := Function.update s.waitState p 0
  exiting := s.exiting
  log := { s.log with
    ups := s.log.ups + 1
    granted := s.log.granted + 1
    left := s.log.left ++ [p]
    handed := s.log.handed ++ [p] }

/-- The process `p` goes to sleep in `down`. -/
def asleepBy (s : SemState P) (p : P) : SemState P where
  sem := { s.sem with queue := s.sem.queue ++ [p] }
  wait := Function.update s.wait p (some ⟨wtInterrupted, true⟩)
  state := Function.update s.state p .sleeping
  waitState := Function.update s.waitState p wtKsem
  exiting := s.exiting
  log := { s.log with joined := s.log.joined ++ [p] }

theorem up_of_nil (hq : s.sem.queue = []) : s.up = some s.raised := by
  rw [up, upWith, hq]
  rfl

/-- Neither of the assertions on the way fails, for the first waiter is asleep in `WT_KSEM`. -/
theorem Ok.up_of_cons (h : s.Ok v) {queue : List P} (hq : s.sem.queue = p :: queue) :
    s.up = some (s.handedTo p queue) := by
  have hmem : p ∈ s.sem.queue := hq ▸ List.mem_cons_self
  obtain ⟨hstate, hwait⟩ := h.asleep p hmem
  obtain ⟨w, hw, hl⟩ := (h.mem_iff p).mp hmem
  have hdel : s.waitQueueDel p w = some { s with
      sem := { s.sem with queue := queue }
      wait := Function.update s.wait p (some { w with linked := false })
      log := { s.log with left := s.log.left ++ [p] } } := by
    rw [waitQueueDel, if_pos hl, hq, List.erase_cons_head]
  rw [up, upWith, hq]
  dsimp only
  rw [if_pos hwait, hw, Option.bind_some, wakeupWait, if_pos rfl, hdel, Option.bind_some,
    wakeupProc]
  dsimp only
  rw [hstate, if_neg (by decide), if_pos (by decide), Function.update_self, Function.update_idem]
  rfl

theorem down_of_pos (hv : 0 < s.sem.value) (p : P) : s.down p = some s.take := if_pos hv

theorem down_of_not_pos (hv : ¬0 < s.sem.value) (p : P) : s.down p = some (s.asleepBy p) := by
  rw [down, downWith, if_neg hv]
  rfl

/-- A process that runs again has been handed a unit: its `wait_t` is out of the queue, and
`wakeup_flags` is `WT_KSEM`. -/
theorem Ok.downRet_run (h : s.Ok v) (hp : s.wait p ≠ none) (hstate : s.state p = .runnable) :
    s.downRet p = some { s with wait := Function.update s.wait p none } := by
  obtain ⟨w, hw⟩ := Option.ne_none_iff_exists'.mp hp
  have hl : w.linked = false := by
    rw [Bool.eq_false_iff]
    intro hl
    have hasleep := (h.asleep p ((h.mem_iff p).mpr ⟨w, hw, hl⟩)).1
    rw [hstate] at hasleep
    cases hasleep
  have hflags : w.wakeupFlags = wtKsem := h.woken p w hw hl
  rw [downRet, hw, Option.bind_some, downRetWith, hl, if_neg Bool.false_ne_true, Option.map_some,
    Option.bind_some, hflags, if_neg (not_not.mpr rfl), if_pos rfl]

end SemState

/-! ## The operations keep the invariant -/

namespace SemState.Ok

omit [DecidableEq P] in
theorem raised (h : s.Ok v) (hq : s.sem.queue = []) : s.raised.Ok v where
  agree := h.agree
  empty _ := hq
  asleep := h.asleep
  woken := h.woken
  balance := by
    have hbalance := h.balance
    rw [SemState.raised]
    dsimp only
    rw [incInt]
    split_ifs with hmax
    -- The value loses `2 ^ 32`, and that is what `wraps` counts.
    · rw [intMax] at hmax ⊢
      push_cast
      linarith
    · push_cast
      linarith
  nonneg hv hwraps := by
    have hmax : s.sem.value ≠ intMax := by
      intro hmax
      rw [SemState.raised] at hwraps
      dsimp only at hwraps
      rw [if_pos hmax] at hwraps
      cases hwraps
    have hzero : s.log.wraps = 0 := (Nat.add_eq_zero_iff.mp hwraps).1
    rw [SemState.raised]
    dsimp only
    rw [incInt, if_neg hmax]
    exact (h.nonneg hv hzero).trans (lt_add_one _).le
  order := h.order
  handed := h.handed

theorem handedTo (h : s.Ok v) {queue : List P} (hq : s.sem.queue = p :: queue) :
    (s.handedTo p queue).Ok v where
  agree := by
    have hpop := h.agree.pop (x := ()) hq
    rw [queue_update_unit] at hpop
    rw [SemState.handedTo]
    dsimp only
    rw [place_update]
    exact hpop
  empty hv := by
    have hnil := h.empty hv
    rw [hq] at hnil
    cases hnil
  asleep q hmem := by
    have hne : q ≠ p := by
      rintro rfl
      exact (List.nodup_cons.mp (hq ▸ h.nodup)).1 hmem
    rw [SemState.handedTo]
    dsimp only
    rw [Function.update_of_ne hne, Function.update_of_ne hne]
    exact h.asleep q (hq ▸ List.mem_cons_of_mem p hmem)
  woken q w hw hl := by
    rw [SemState.handedTo] at hw
    dsimp only at hw
    rcases eq_or_ne q p with rfl | hne
    · rw [Function.update_self] at hw
      cases hw
      rfl
    · rw [Function.update_of_ne hne] at hw
      exact h.woken q w hw hl
  balance := by
    have hbalance := h.balance
    rw [SemState.handedTo]
    dsimp only
    push_cast
    linarith
  nonneg := h.nonneg
  order := by
    rw [SemState.handedTo]
    dsimp only
    rw [h.order, hq, List.append_assoc]
    rfl
  handed := congrArg (· ++ [p]) h.handed

omit [DecidableEq P] in
theorem take (h : s.Ok v) (hv : 0 < s.sem.value) : s.take.Ok v where
  agree := h.agree
  empty _ := h.empty hv
  asleep := h.asleep
  woken := h.woken
  balance := by
    have hbalance := h.balance
    rw [SemState.take]
    dsimp only
    push_cast
    linarith
  nonneg _ _ := Int.sub_nonneg_of_le hv
  order := h.order
  handed := h.handed

theorem asleepBy (h : s.Ok v) (hv : ¬0 < s.sem.value) (hp : s.wait p = none) :
    (s.asleepBy p).Ok v where
  agree := by
    have hpush := h.agree.push (place_eq_none hp) ()
    rw [queue_update_unit] at hpush
    rw [SemState.asleepBy]
    dsimp only
    rw [place_update]
    exact hpush
  empty hpos := absurd hpos hv
  asleep q hmem := by
    rw [SemState.asleepBy]
    dsimp only
    rcases eq_or_ne q p with rfl | hne
    · rw [Function.update_self, Function.update_self]
      exact ⟨rfl, rfl⟩
    · rw [Function.update_of_ne hne, Function.update_of_ne hne]
      have hold : q ∈ s.sem.queue :=
        (List.mem_append.mp hmem).resolve_right fun hlast ↦ hne (List.mem_singleton.mp hlast)
      exact h.asleep q hold
  woken q w hw hl := by
    rw [SemState.asleepBy] at hw
    dsimp only at hw
    rcases eq_or_ne q p with rfl | hne
    · rw [Function.update_self] at hw
      cases hw
      cases hl
    · rw [Function.update_of_ne hne] at hw
      exact h.woken q w hw hl
  balance := h.balance
  nonneg := h.nonneg
  order := by
    rw [SemState.asleepBy]
    dsimp only
    rw [h.order, List.append_assoc]
  handed := h.handed

/-- A process that is out of the queue leaves `down`. -/
theorem leave (h : s.Ok v) (hp : p ∉ s.sem.queue) :
    ({ s with wait := Function.update s.wait p none } : SemState P).Ok v where
  agree := by
    have hnone : (s.wait p).bind Wait.place = none := by
      rw [← Option.not_isSome_iff_eq_none, Option.isSome_iff_exists]
      rintro ⟨⟨⟩, hplace⟩
      exact hp ((h.agree.mem_iff () p).mpr hplace)
    dsimp only
    rw [place_update]
    exact h.agree.stay hnone
  empty := h.empty
  asleep := h.asleep
  woken q w hw hl := by
    dsimp only at hw
    rcases eq_or_ne q p with rfl | hne
    · rw [Function.update_self] at hw
      cases hw
    · rw [Function.update_of_ne hne] at hw
      exact h.woken q w hw hl
  balance := h.balance
  nonneg := h.nonneg
  order := h.order
  handed := h.handed

theorem up (h : s.Ok v) : ∃ s', s.up = some s' ∧ s'.Ok v := by
  -- With nobody in the queue the unit goes into the value, else to the first waiter.
  cases hq : s.sem.queue with
  | nil => exact ⟨s.raised, up_of_nil hq, h.raised hq⟩
  | cons p queue => exact ⟨s.handedTo p queue, h.up_of_cons hq, h.handedTo hq⟩

theorem down (h : s.Ok v) (hp : s.wait p = none) : ∃ s', s.down p = some s' ∧ s'.Ok v := by
  by_cases hv : 0 < s.sem.value
  · exact ⟨s.take, down_of_pos hv p, h.take hv⟩
  · exact ⟨s.asleepBy p, down_of_not_pos hv p, h.asleepBy hv hp⟩

theorem downRet (h : s.Ok v) (hp : s.wait p ≠ none) (hstate : s.state p = .runnable) :
    ∃ s', s.downRet p = some s' ∧ s'.Ok v := by
  refine ⟨_, h.downRet_run hp hstate, h.leave fun hmem ↦ ?_⟩
  have hasleep := (h.asleep p hmem).1
  rw [hstate] at hasleep
  cases hasleep

omit [DecidableEq P] in
theorem tryDown (h : s.Ok v) : s.tryDown.Ok v := by
  rw [SemState.tryDown]
  split_ifs with hv
  · exact h.take hv
  · exact h

/-- `do_kill` of a waiter only sets `PF_EXITING`. -/
theorem doKill_of_mem (h : s.Ok v) (hp : p ∈ s.sem.queue) :
    ∃ exiting, s.doKill p = some { s with exiting } := by
  rw [doKill]
  split_ifs with hexit
  · exact ⟨s.exiting, rfl⟩
  · refine ⟨Function.update s.exiting p true, ?_⟩
    dsimp only
    rw [(h.asleep p hp).2, wtKsem_not_interrupted, if_neg (not_not.mpr rfl)]

theorem doKill (h : s.Ok v) (hs : s.doKill p = some s') : s'.Ok v := by
  -- A waiter is not woken, and who is woken is not in the queue.
  by_cases hp : p ∈ s.sem.queue
  · obtain ⟨exiting, hkill⟩ := h.doKill_of_mem hp
    rw [hkill] at hs
    cases hs
    exact h.setExiting exiting
  · rw [SemState.doKill] at hs
    dsimp only at hs
    split_ifs at hs with hexit hwait
    · cases hs
      exact h
    · rw [wakeupProc] at hs
      split_ifs at hs with hzombie hrunnable
      · cases hs
        exact h.setProc hp .runnable 0 _
      · cases hs
        exact h.setExiting _
    · cases hs
      exact h.setExiting _

theorem call (h : s.Ok v) {c : SemCall P} (hc : c.Enabled s) (hs : s.call c = some s') :
    s'.Ok v := by
  cases c with
  | up =>
    obtain ⟨t, ht, hok⟩ := h.up
    cases ht.symm.trans hs
    exact hok
  | down p =>
    obtain ⟨t, ht, hok⟩ := h.down hc.1
    cases ht.symm.trans hs
    exact hok
  | downRet p =>
    obtain ⟨t, ht, hok⟩ := h.downRet hc.1 hc.2
    cases ht.symm.trans hs
    exact hok
  | tryDown =>
    cases hs
    exact h.tryDown
  | kill p => exact h.doKill hs
  | other p state waitState exiting =>
    cases hs
    exact h.setProc (h.notMem hc) state waitState _

end SemState.Ok

end Invariant

theorem SemReach.ok {v : ℤ} {s : SemState P} (h : SemReach v s) : s.Ok v := by
  induction h with
  | init state waitState exiting => exact SemState.init_ok v state waitState exiting
  | call h hc hs ih => exact ih.call hc hs

/-! ## Correctness -/

/-- The semaphore is used correctly, when it was initialised to `v`. -/
structure SemState.Correct (v : ℤ) (s : SemState P) : Prop where
  /-- The value is not negative, unless it has wrapped around. -/
  nonneg : 0 ≤ v → s.log.wraps = 0 → 0 ≤ s.sem.value
  /-- Nobody waits while there are units. -/
  empty : 0 < s.sem.value → s.sem.queue = []
  /-- Every unit is in the value or was granted. -/
  units : s.log.wraps = 0 → v + s.log.ups = s.sem.value + s.log.granted
  /-- Units are handed to those who wait in the order in which they came. -/
  fifo : s.log.joined = s.log.handed ++ s.sem.queue
  /-- A process leaves the queue only by being handed a unit. -/
  left : s.log.left = s.log.handed
  /-- It has left the queue as often as it has come, but for the one time it may be there now. -/
  once : ∀ p, s.log.joined.count p = s.log.left.count p + if p ∈ s.sem.queue then 1 else 0
  /-- When it is not in `__down`, it is not in the queue. -/
  out : ∀ p, s.wait p = none → p ∉ s.sem.queue
  /-- A waiter that is killed stays where it is and goes on waiting. -/
  killed : ∀ p ∈ s.sem.queue, ∃ exiting, s.doKill p = some { s with exiting }
  /-- No assertion fails in `up`, `down` or `try_down`. -/
  asserts : ∀ c : SemCall P, c.Enabled s → (∀ p, c ≠ .kill p) → s.call c ≠ none

theorem SemState.Ok.count_joined {v : ℤ} {s : SemState P} (h : s.Ok v) (p : P) :
    s.log.joined.count p = s.log.left.count p + if p ∈ s.sem.queue then 1 else 0 := by
  rw [h.order, List.count_append]
  congr 1
  split_ifs with hp
  · exact List.count_eq_one_of_mem h.nodup hp
  · exact List.count_eq_zero_of_not_mem hp

theorem SemState.Ok.call_ne_none {v : ℤ} {s : SemState P} (h : s.Ok v) {c : SemCall P}
    (hc : c.Enabled s) (hkill : ∀ p, c ≠ .kill p) : s.call c ≠ none := by
  rw [Option.ne_none_iff_exists']
  cases c with
  | up => exact h.up.imp fun _ ↦ And.left
  | down p => exact (h.down hc.1).imp fun _ ↦ And.left
  | downRet p => exact (h.downRet hc.1 hc.2).imp fun _ ↦ And.left
  | tryDown => exact ⟨s.tryDown, rfl⟩
  | kill p => exact absurd rfl (hkill p)
  | other p state waitState exiting => exact ⟨s.other p state waitState exiting, rfl⟩

/-- Whatever the initial value and the order of the calls, the semaphore is used correctly. -/
theorem semaphore_correct {v : ℤ} {s : SemState P} (h : SemReach v s) : s.Correct v where
  nonneg := h.ok.nonneg
  empty := h.ok.empty
  units hwraps := by
    have hbalance := h.ok.balance
    rw [hwraps, Nat.cast_zero, mul_zero, add_zero] at hbalance
    exact hbalance
  fifo := h.ok.handed ▸ h.ok.order
  left := h.ok.handed.symm
  once := h.ok.count_joined
  out _ hp := h.ok.notMem hp
  killed _ hp := h.ok.doKill_of_mem hp
  asserts _ hc hkill := h.ok.call_ne_none hc hkill

/-- Two processes wait for a unit, the first of them is killed, and then a unit comes. -/
theorem semaphore_correct_sample : ∃ s : SemState Bool, SemReach 0 s ∧ s.sem.queue = [false] ∧
    s.log.handed = [true] ∧ s.exiting true = true ∧ s.Correct 0 := by
  have h₀ : SemReach 0 (.init 0 (fun _ : Bool ↦ .runnable) (fun _ ↦ 0) fun _ ↦ false) := .init _ _ _
  have h₁ := h₀.call (c := .down true) ⟨rfl, rfl⟩ rfl
  have h₂ := h₁.call (c := .down false) ⟨rfl, rfl⟩ rfl
  have h₃ := h₂.call (c := .kill true) trivial rfl
  have h₄ := h₃.call (c := .up) trivial rfl
  exact ⟨_, h₄, rfl, rfl, rfl, semaphore_correct h₄⟩

/-- The value is negative when it was so from the start, and also when it has wrapped around. -/
theorem semaphore_not_correct_sample :
    (¬∀ (v : ℤ) (s : SemState Unit), SemReach v s → 0 ≤ s.sem.value) ∧
      ¬∀ (v : ℤ) (s : SemState Unit), 0 ≤ v → SemReach v s →
        0 ≤ s.sem.value ∧ v + s.log.ups = s.sem.value + s.log.granted := by
  refine ⟨fun h ↦ ?_, fun h ↦ ?_⟩
  · have hinit : SemReach (-1) (.init (-1) (fun _ : Unit ↦ .runnable) (fun _ ↦ 0) fun _ ↦ false) :=
      .init _ _ _
    exact absurd (h (-1) _ hinit) (by decide)
  · have hinit : SemReach intMax
        (.init intMax (fun _ : Unit ↦ .runnable) (fun _ ↦ 0) fun _ ↦ false) := .init _ _ _
    have hup := hinit.call (c := .up) trivial rfl
    exact absurd (h intMax _ (by decide) hup).1 (by decide)

end Ucore
