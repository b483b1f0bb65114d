import Ucore.Lib.UpdateSum
import Ucore.Lib.WaitQueue
import Ucore.Sync.Sem
import Mathlib.Data.Fintype.Option
import Mathlib.Logic.Relation

/-!
# Monitors

`cond_wait` and `cond_signal` of `kern/sync/monitor.c` and the protocol of `monitor.h` for the
routines of a monitor: `down` of `mutex` on entry, `up` of `next` or of `mutex` on exit. Each
process of `P` is somewhere in that code, and a step runs one of them from one semaphore operation
to the next: a switch may come after every one of them.

## One unit of control

The semaphores `mutex`, `next` and those of the condition variables share a single unit: it is the
value of one of them, or a process is inside the monitor, or a process has been handed the unit by
an `up` and has not run since. `MonState.Ok` says so (`units`), together with the queues of the
semaphores and the counters, which count the processes between `count ++` and `count --`. That at
most one process is inside is the unit read off, and every value is 0 or 1.

## Signals

An `up` on a semaphore with waiters hands the unit to the first of them. Until that process has run
no other process is inside, whatever steps come in between (`signalled_of_quiet`), so a process that
is signalled is the next one inside the monitor. These are put together in `monitor_hoare`.
-/

open UpdateSum

namespace Ucore

/-- The semaphores of a `monitor_t` whose array `cv` is indexed by `κ`. -/
inductive MonSem (κ : Type)
  | mutex
  | next
  | cv (c : κ)
  deriving DecidableEq, Repr

/-- Where a process is. -/
inductive MonPc (κ : Type)
  /-- In no routine of the monitor. -/
  | outside
  /-- About to call `down`. -/
  | before (x : MonSem κ)
  /-- In the queue of a semaphore. -/
  | blocked (x : MonSem κ)
  /-- Woken by an `up`, and not running yet. -/
  | handed (x : MonSem κ)
  /-- Its call of `down` has returned, and what follows it has not run yet. -/
  | returned (x : MonSem κ)
  /-- In the body of a routine. -/
  | inside
  deriving DecidableEq, Repr

/-- `monitor_t`, and where each process is. -/
structure MonState (P κ : Type) where
  sem : MonSem κ → Sem P
  nextCount : ℤ
  count : κ → ℤ
  pc : P → MonPc κ

namespace MonPc

variable {κ : Type}

/-- The semaphore whose `down` the process is in, with the code next to it. -/
def sem? : MonPc κ → Option (MonSem κ)
  | outside | inside => none
  | before x | blocked x | handed x | returned x => some x

/-- The process runs inside the monitor. -/
def Active : MonPc κ → Prop
  | returned _ | inside => True
  | outside | before _ | blocked _ | handed _ => False

/-- The process has been handed a unit by an `up`, and has not resumed. -/
def Handed : MonPc κ → Prop
  | handed _ => True
  | outside | before _ | blocked _ | returned _ | inside => False

instance (pc : MonPc κ) : Decidable pc.Active := by
  cases pc <;> unfold Active <;> infer_instance

instance (pc : MonPc κ) : Decidable pc.Handed := by
  cases pc <;> unfold Handed <;> infer_instance

/-- The semaphore a process is blocked on. -/
def blockedOn : MonPc κ → Option (MonSem κ)
  | blocked x => some x
  | outside | before _ | handed _ | returned _ | inside => none

/-- The unit of control that a process has. -/
def unit (pc : MonPc κ) : ℤ := if pc.Active ∨ pc.Handed then 1 else 0

variable {pc : MonPc κ}

theorem eq_blocked {x : MonSem κ} (h : pc.blockedOn = some x) : pc = .blocked x := by
  cases pc <;> cases h
  rfl

theorem unit_nonneg (pc : MonPc κ) : 0 ≤ pc.unit := by
  rw [unit]
  split_ifs
  · exact zero_le_one
  · exact le_rfl

@[simp] theorem unit_outside : (outside : MonPc κ).unit = 0 := if_neg (not_or.mpr ⟨id, id⟩)

@[simp] theorem unit_before (x : MonSem κ) : (before x).unit = 0 := if_neg (not_or.mpr ⟨id, id⟩)

@[simp] theorem unit_blocked (x : MonSem κ) : (blocked x).unit = 0 := if_neg (not_or.mpr ⟨id, id⟩)

@[simp] theorem unit_handed (x : MonSem κ) : (handed x).unit = 1 := if_pos (.inr trivial)

@[simp] theorem unit_returned (x : MonSem κ) : (returned x).unit = 1 := if_pos (.inl trivial)

@[simp] theorem unit_inside : (inside : MonPc κ).unit = 1 := if_pos (.inl trivial)

theorem unit_of_active (h : pc.Active) : pc.unit = 1 := if_pos (.inl h)

end MonPc

namespace MonState

variable {P κ : Type} [DecidableEq P] [DecidableEq κ]

/-- `monitor_init`. -/
def init : MonState P κ where
  sem x := if x = .mutex then .init 1 else .init 0
  nextCount := 0
  count _ := 0
  pc _ := .outside

/-- The process goes on to another place. -/
def setPc (s : MonState P κ) (p : P) (pc : MonPc κ) : MonState P κ :=
  { s with pc := Function.update s.pc p pc }

/-- `up` of one of the semaphores. -/
def up (s : MonState P κ) (x : MonSem κ) : MonState P κ :=
  let s' := { s with sem := Function.update s.sem x (s.sem x).up.1 }
  match (s.sem x).up.2 with
  | none => s'
  | some p => s'.setPc p (.handed x)

/-- `down` of one of the semaphores, up to the call of `schedule`. -/
def down (s : MonState P κ) (p : P) (x : MonSem κ) : MonState P κ :=
  let s' := { s with sem := Function.update s.sem x ((s.sem x).down p).1 }
  if ((s.sem x).down p).2 then s'.setPc p (.returned x) else s'.setPc p (.blocked x)

/-- The semaphore that is upped when the monitor is left. -/
def exitSem (s : MonState P κ) : MonSem κ := if 0 < s.nextCount then .next else .mutex

/-- What follows a call of `down`: `next_count --`, `cv.count --`, or the body of the routine. -/
def leave (s : MonState P κ) : MonSem κ → MonState P κ
  | .mutex => s
  | .next => { s with nextCount := s.nextCount - 1 }
  | .cv c => { s with count := Function.update s.count c (s.count c - 1) }

/-- `cond_wait`, up to its call of `down`. -/
def condWait (s : MonState P κ) (p : P) (c : κ) : MonState P κ :=
  let s' := { s with count := Function.update s.count c (s.count c + 1) }
  (s'.up s'.exitSem).setPc p (.before (.cv c))

/-- `cond_signal`, up to its call of `down`. -/
def condSignal (s : MonState P κ) (p : P) (c : κ) : MonState P κ :=
  if 0 < s.count c then
    ({ s with nextCount := s.nextCount + 1 }.up (.cv c)).setPc p (.before .next)
  else s

end MonState

open MonState

variable {P κ : Type} [DecidableEq P] [DecidableEq κ]

/-- A process runs up to the next switch. -/
inductive MonStep : MonState P κ → MonState P κ → Prop
  | enter {s : MonState P κ} {p : P} (hpc : s.pc p = .outside) :
      MonStep s (s.setPc p (.before .mutex))
  | down {s : MonState P κ} {p : P} {x : MonSem κ} (hpc : s.pc p = .before x) :
      MonStep s (s.down p x)
  | resume {s : MonState P κ} {p : P} {x : MonSem κ} (hpc : s.pc p = .handed x) :
      MonStep s (s.setPc p (.returned x))
  | proceed {s : MonState P κ} {p : P} {x : MonSem κ} (hpc : s.pc p = .returned x) :
      MonStep s ((s.leave x).setPc p .inside)
  | wait {s : MonState P κ} {p : P} (c : κ) (hpc : s.pc p = .inside) : MonStep s (s.condWait p c)
  | signal {s : MonState P κ} {p : P} (c : κ) (hpc : s.pc p = .inside) :
      MonStep s (s.condSignal p c)
  | exit {s : MonState P κ} {p : P} (hpc : s.pc p = .inside) :
      MonStep s ((s.up s.exitSem).setPc p .outside)

/-! ## Semaphores and their waiters -/

/-- The values are not negative, and the queue of a semaphore holds the processes that are blocked
on it. -/
structure MonState.QueuesOk (s : MonState P κ) : Prop where
  nonneg : ∀ x, 0 ≤ (s.sem x).value
  agree : WaitQueue.Agree (fun x ↦ (s.sem x).queue) fun p ↦ (s.pc p).blockedOn

section Queues

variable {s : MonState P κ} {p : P} {x : MonSem κ}

theorem MonState.up_cases (s : MonState P κ) (x : MonSem κ) :
    ((s.sem x).queue = [] ∧ s.up x = { s with
        sem := Function.update s.sem x ⟨incInt (s.sem x).value, (s.sem x).queue⟩ }) ∨
      ∃ p queue, (s.sem x).queue = p :: queue ∧ s.up x = { s with
        sem := Function.update s.sem x ⟨(s.sem x).value, queue⟩
        pc := Function.update s.pc p (.handed x) } := by
  cases hq : (s.sem x).queue with
  | nil =>
    refine .inl ⟨rfl, ?_⟩
    rw [MonState.up, Sem.up_of_nil hq]
    dsimp only
    rw [hq]
  | cons p queue =>
    refine .inr ⟨p, queue, rfl, ?_⟩
    rw [MonState.up, Sem.up_of_cons hq]
    rfl

theorem MonState.down_cases (s : MonState P κ) (p : P) (x : MonSem κ) :
    (0 < (s.sem x).value ∧ s.down p x = { s with
        sem := Function.update s.sem x ⟨(s.sem x).value - 1, (s.sem x).queue⟩
        pc := Function.update s.pc p (.returned x) }) ∨
      (¬0 < (s.sem x).value ∧ s.down p x = { s with
        sem := Function.update s.sem x ⟨(s.sem x).value, (s.sem x).queue ++ [p]⟩
        pc := Function.update s.pc p (.blocked x) }) := by
  by_cases hv : 0 < (s.sem x).value
  · refine .inl ⟨hv, ?_⟩
    rw [MonState.down, Sem.down_of_pos hv]
    rfl
  · refine .inr ⟨hv, ?_⟩
    rw [MonState.down, Sem.down_of_not_pos hv]
    rfl

omit [DecidableEq P] in
/-- The queues after one semaphore was replaced. -/
theorem queue_update (sem : MonSem κ → Sem P) (x : MonSem κ) (new : Sem P) :
    (fun y ↦ (Function.update sem x new y).queue) =
      Function.update (fun y ↦ (sem y).queue) x new.queue :=
  funext fun y ↦ Function.apply_update (fun _ sem : _ ↦ Sem.queue sem) sem x new y

omit [DecidableEq κ] in
theorem blockedOn_update (pc : P → MonPc κ) (p : P) (new : MonPc κ) :
    (fun q ↦ (Function.update pc p new q).blockedOn) =
      Function.update (fun q ↦ (pc q).blockedOn) p new.blockedOn :=
  funext fun q ↦ Function.apply_update (fun _ pc ↦ MonPc.blockedOn pc) pc p new q

namespace MonState.QueuesOk

omit [DecidableEq P] in
theorem init : (MonState.init : MonState P κ).QueuesOk where
  nonneg x := by
    rw [MonState.init]
    dsimp only
    split_ifs
    · exact zero_le_one
    · exact le_rfl
  agree := by
    have hqueue : ∀ x, ((MonState.init : MonState P κ).sem x).queue = [] := fun x ↦ by
      rw [MonState.init]
      dsimp only
      split_ifs <;> rfl
    rw [funext hqueue]
    exact .of_nil

omit [DecidableEq κ] in
theorem setPc (h : s.QueuesOk) {pc : MonPc κ} (hp : (s.pc p).blockedOn = none)
    (hpc : pc.blockedOn = none) : (s.setPc p pc).QueuesOk where
  nonneg := h.nonneg
  agree := by
    rw [MonState.setPc]
    dsimp only
    rw [blockedOn_update, hpc]
    exact h.agree.stay hp

/-- A process that is not blocked is where it was after an `up`. -/
theorem up_pc (h : s.QueuesOk) (x : MonSem κ) {q : P} (hq : (s.pc q).blockedOn = none) :
    (s.up x).pc q = s.pc q := by
  rcases s.up_cases x with ⟨-, heq⟩ | ⟨p, queue, hqueue, heq⟩
  · rw [heq]
  · have hp : (s.pc p).blockedOn = some x := h.agree.place_head hqueue
    have hne : q ≠ p := by
      rintro rfl
      rw [hp] at hq
      cases hq
    rw [heq]
    exact Function.update_of_ne hne _ _

theorem up (h : s.QueuesOk) (x : MonSem κ) (hx : (s.sem x).value < intMax) :
    (s.up x).QueuesOk := by
  rcases s.up_cases x with ⟨-, heq⟩ | ⟨p, queue, hqueue, heq⟩
  · rw [heq]
    refine ⟨(Function.forall_update_iff s.sem (p := fun _ sem ↦ 0 ≤ sem.value)).mpr
      ⟨?_, fun y _ ↦ h.nonneg y⟩, ?_⟩
    · rw [incInt_of_lt hx]
      exact (h.nonneg x).trans (lt_add_one _).le
    · dsimp only
      rw [queue_update, Function.update_eq_self]
      exact h.agree
  · rw [heq]
    refine ⟨(Function.forall_update_iff s.sem (p := fun _ sem ↦ 0 ≤ sem.value)).mpr
      ⟨h.nonneg x, fun y _ ↦ h.nonneg y⟩, ?_⟩
    dsimp only
    rw [queue_update, blockedOn_update]
    exact h.agree.pop hqueue

theorem down (h : s.QueuesOk) (hp : (s.pc p).blockedOn = none) : (s.down p x).QueuesOk := by
  rcases s.down_cases p x with ⟨hv, heq⟩ | ⟨-, heq⟩
  · rw [heq]
    refine ⟨(Function.forall_update_iff s.sem (p := fun _ sem ↦ 0 ≤ sem.value)).mpr
      ⟨Int.sub_nonneg_of_le hv, fun y _ ↦ h.nonneg y⟩, ?_⟩
    dsimp only
    rw [queue_update, blockedOn_update, Function.update_eq_self]
    exact h.agree.stay hp
  · rw [heq]
    refine ⟨(Function.forall_update_iff s.sem (p := fun _ sem ↦ 0 ≤ sem.value)).mpr
      ⟨h.nonneg x, fun y _ ↦ h.nonneg y⟩, ?_⟩
    dsimp only
    rw [queue_update, blockedOn_update]
    exact h.agree.push hp x

end MonState.QueuesOk

end Queues

/-! ## Units of control and counters -/

section Units

instance [Fintype κ] : Fintype (MonSem κ) where
  elems := insert .mutex (insert .next (Finset.univ.image .cv))
  complete x := by
    cases x <;> simp

variable [Fintype P] [Fintype κ]

/-- Whether a process is in `down` of a semaphore or next to it. -/
def MonPc.inDown (x : MonSem κ) (pc : MonPc κ) : ℤ := if pc.sem? = some x then 1 else 0

/-- The values of the semaphores and the units that processes have. -/
def MonState.units (s : MonState P κ) : ℤ := total Sem.value s.sem + total MonPc.unit s.pc

/-- What holds between two steps: the queues are sound, there is one unit, and the counters count
the processes between `count ++` and `count --`. -/
structure MonState.Ok (s : MonState P κ) : Prop where
  queues : s.QueuesOk
  units : s.units = 1
  nextCount : s.nextCount = total (MonPc.inDown .next) s.pc
  count : ∀ c, s.count c = total (MonPc.inDown (.cv c)) s.pc

variable {s : MonState P κ} {p : P} {x : MonSem κ} {pc : MonPc κ}

theorem MonState.units_setPc (s : MonState P κ) (p : P) (pc : MonPc κ) :
    (s.setPc p pc).units = s.units - (s.pc p).unit + pc.unit := by
  rw [MonState.units, MonState.setPc]
  dsimp only
  rw [total_update, MonState.units]
  ring

theorem MonState.QueuesOk.units_up (h : s.QueuesOk) (x : MonSem κ)
    (hx : (s.sem x).value < intMax) : (s.up x).units = s.units + 1 := by
  rcases s.up_cases x with ⟨-, heq⟩ | ⟨p, queue, hqueue, heq⟩
  · rw [heq, MonState.units, MonState.units, total_update, incInt_of_lt hx]
    ring
  · have hp : (s.pc p).unit = 0 := by
      rw [MonPc.eq_blocked (h.agree.place_head hqueue), MonPc.unit_blocked]
    rw [heq, MonState.units, MonState.units, total_update, total_update, hp, MonPc.unit_handed]
    ring

omit [Fintype κ] in
theorem MonState.QueuesOk.inDown_up (h : s.QueuesOk) (x y : MonSem κ) :
    total (MonPc.inDown y) (s.up x).pc = total (MonPc.inDown y) s.pc := by
  rcases s.up_cases x with ⟨-, heq⟩ | ⟨p, queue, hqueue, heq⟩
  · rw [heq]
  · rw [heq]
    refine total_update_of_eq ?_
    rw [MonPc.eq_blocked (h.agree.place_head hqueue)]
    rfl

omit [DecidableEq P] in
theorem MonState.Ok.value_le (h : s.Ok) (x : MonSem κ) : (s.sem x).value ≤ 1 := by
  have hle := le_total h.queues.nonneg x
  have hpc := total_nonneg (f := s.pc) fun p ↦ MonPc.unit_nonneg (s.pc p)
  have hunits := h.units
  rw [MonState.units] at hunits
  omega

omit [DecidableEq P] in
theorem MonState.Ok.value_lt (h : s.Ok) (x : MonSem κ) : (s.sem x).value < intMax :=
  (h.value_le x).trans_lt (by decide)

/-- A process that has the unit has it alone. -/
theorem MonState.Ok.unique (h : s.Ok) {q : P} (hp : (s.pc p).unit = 1) (hq : (s.pc q).unit = 1) :
    p = q := by
  by_contra hne
  have hpair := add_le_total (f := s.pc) (fun p ↦ MonPc.unit_nonneg (s.pc p)) hne
  have hsem := total_nonneg h.queues.nonneg
  have hunits := h.units
  rw [MonState.units] at hunits
  omega

omit [DecidableEq P] in
theorem MonState.Ok.value_of_unit (h : s.Ok) (hp : (s.pc p).unit = 1) (x : MonSem κ) :
    ¬0 < (s.sem x).value := by
  intro hx
  have hle := le_total (f := s.pc) (fun p ↦ MonPc.unit_nonneg (s.pc p)) p
  have hsem := le_total h.queues.nonneg x
  have hunits := h.units
  rw [MonState.units] at hunits
  omega

omit [DecidableEq P] in
theorem MonState.Ok.value_unique (h : s.Ok) {y : MonSem κ} (hx : 0 < (s.sem x).value)
    (hy : 0 < (s.sem y).value) : x = y := by
  by_contra hne
  have hpair := add_le_total h.queues.nonneg hne
  have hpc := total_nonneg (f := s.pc) fun p ↦ MonPc.unit_nonneg (s.pc p)
  have hunits := h.units
  rw [MonState.units] at hunits
  omega

/-! ## Steps -/

omit [DecidableEq P] in
theorem MonState.Ok.init : (MonState.init : MonState P κ).Ok where
  queues := .init
  units := by
    have hsem : total Sem.value (MonState.init : MonState P κ).sem =
        ∑ x : MonSem κ, if x = .mutex then 1 else 0 := by
      refine Finset.sum_congr rfl fun x _ ↦ ?_
      rw [MonState.init]
      dsimp only
      split_ifs <;> rfl
    have hpc : total MonPc.unit (MonState.init : MonState P κ).pc = 0 :=
      total_const MonPc.unit_outside
    rw [MonState.units, hsem, hpc, Finset.sum_ite_eq', if_pos (Finset.mem_univ _)]
    rfl
  nextCount := (total_const rfl).symm
  count _ := (total_const rfl).symm

/-- A process that has no unit, or runs on with the one it has, may move. -/
theorem MonState.Ok.setPc (h : s.Ok) (hp : (s.pc p).blockedOn = none) (hpc : pc.blockedOn = none)
    (hunit : pc.unit = (s.pc p).unit) (hsem : ∀ x ≠ .mutex, pc.inDown x = (s.pc p).inDown x) :
    (s.setPc p pc).Ok where
  queues := h.queues.setPc hp hpc
  units := by
    rw [units_setPc, hunit, sub_add_cancel]
    exact h.units
  nextCount := by
    rw [MonState.setPc]
    dsimp only
    rw [total_update_of_eq (hsem _ (by simp))]
    exact h.nextCount
  count c := by
    rw [MonState.setPc]
    dsimp only
    rw [total_update_of_eq (hsem _ (by simp))]
    exact h.count c

theorem MonState.Ok.down (h : s.Ok) (hp : s.pc p = .before x) : (s.down p x).Ok := by
  have hb : (s.pc p).blockedOn = none := by
    rw [hp]
    rfl
  have hunit : (s.pc p).unit = 0 := by
    rw [hp, MonPc.unit_before]
  have hunits := h.units
  rw [MonState.units] at hunits
  refine ⟨h.queues.down hb, ?_, ?_, fun c ↦ ?_⟩ <;>
    rcases s.down_cases p x with ⟨-, heq⟩ | ⟨-, heq⟩ <;> rw [heq]
  · rw [MonState.units, total_update, total_update, hunit, MonPc.unit_returned]
    dsimp only
    omega
  · rw [MonState.units, total_update, total_update, hunit, MonPc.unit_blocked]
    dsimp only
    omega
  all_goals dsimp only
  all_goals rw [total_update_of_eq (by rw [hp]; rfl)]
  exacts [h.nextCount, h.nextCount, h.count c, h.count c]

omit [Fintype P] [Fintype κ] in
theorem MonState.up_counters (s : MonState P κ) (x : MonSem κ) :
    (s.up x).nextCount = s.nextCount ∧ (s.up x).count = s.count := by
  rcases s.up_cases x with ⟨-, heq⟩ | ⟨p, queue, -, heq⟩ <;> rw [heq] <;> exact ⟨rfl, rfl⟩

/-- The process that runs hands its unit on and goes to a place without one. -/
theorem MonState.QueuesOk.handOn (h : s.QueuesOk) (hx : (s.sem x).value < intMax)
    (hp : s.pc p = .inside) (hpc : pc.blockedOn = none) (hunit : pc.unit = 0) :
    ((s.up x).setPc p pc).QueuesOk ∧ ((s.up x).setPc p pc).units = s.units ∧
      ∀ y, total (MonPc.inDown y) ((s.up x).setPc p pc).pc =
        total (MonPc.inDown y) s.pc + pc.inDown y := by
  have hb : (s.pc p).blockedOn = none := by
    rw [hp]
    rfl
  have hpc' : (s.up x).pc p = .inside := (h.up_pc x hb).trans hp
  refine ⟨(h.up x hx).setPc (by rw [hpc']; rfl) hpc, ?_, fun y ↦ ?_⟩
  · rw [units_setPc, h.units_up x hx, hpc', MonPc.unit_inside, hunit,
      add_sub_cancel_right, add_zero]
  · have hzero : (MonPc.inside : MonPc κ).inDown y = 0 := rfl
    rw [MonState.setPc]
    dsimp only
    rw [total_update, h.inDown_up, hpc', hzero, sub_zero]

omit [Fintype κ] in
theorem inDown_before (x y : MonSem κ) :
    (MonPc.before x).inDown y = if x = y then 1 else 0 := by
  rw [MonPc.inDown, MonPc.sem?]
  simp only [Option.some.injEq]

theorem MonState.Ok.condWait (h : s.Ok) (c : κ) (hp : s.pc p = .inside) : (s.condWait p c).Ok := by
  obtain ⟨hqueues, hunits, hdown⟩ := MonState.QueuesOk.handOn
    (s := { s with count := Function.update s.count c (s.count c + 1) })
    ⟨h.queues.nonneg, h.queues.agree⟩ (h.value_lt s.exitSem) hp
    (show (MonPc.before (.cv c)).blockedOn = none from rfl) (MonPc.unit_before _)
  have hcounters := MonState.up_counters
    { s with count := Function.update s.count c (s.count c + 1) } s.exitSem
  refine ⟨hqueues, hunits.trans h.units, ?_, fun d ↦ ?_⟩
  · refine hcounters.1.trans ?_
    refine Eq.trans ?_ (hdown .next).symm
    rw [inDown_before, if_neg (by simp), add_zero]
    exact h.nextCount
  · refine (congrFun hcounters.2 d).trans ?_
    refine Eq.trans ?_ (hdown (.cv d)).symm
    rw [inDown_before]
    dsimp only
    rcases eq_or_ne d c with rfl | hd
    · rw [Function.update_self, if_pos rfl, h.count]
    · rw [Function.update_of_ne hd, if_neg (by simpa using hd.symm), add_zero]
      exact h.count d

theorem MonState.Ok.condSignal (h : s.Ok) (c : κ) (hp : s.pc p = .inside) :
    (s.condSignal p c).Ok := by
  rw [MonState.condSignal]
  split_ifs with hc
  · obtain ⟨hqueues, hunits, hdown⟩ := MonState.QueuesOk.handOn
      (s := { s with nextCount := s.nextCount + 1 })
      ⟨h.queues.nonneg, h.queues.agree⟩ (h.value_lt (.cv c)) hp
      (show (MonPc.before .next).blockedOn = none from rfl) (MonPc.unit_before _)
    have hcounters := MonState.up_counters { s with nextCount := s.nextCount + 1 } (.cv c)
    refine ⟨hqueues, hunits.trans h.units, ?_, fun d ↦ ?_⟩
    · refine hcounters.1.trans ?_
      refine Eq.trans ?_ (hdown .next).symm
      rw [inDown_before, if_pos rfl]
      exact congrArg (· + 1) h.nextCount
    · refine (congrFun hcounters.2 d).trans ?_
      refine Eq.trans ?_ (hdown (.cv d)).symm
      rw [inDown_before, if_neg (by simp), add_zero]
      exact h.count d
  · exact h

theorem MonState.Ok.exit (h : s.Ok) (hp : s.pc p = .inside) :
    ((s.up s.exitSem).setPc p .outside).Ok := by
  obtain ⟨hqueues, hunits, hdown⟩ := h.queues.handOn (h.value_lt s.exitSem) hp
    (show MonPc.outside.blockedOn = none from rfl) MonPc.unit_outside
  have hcounters := MonState.up_counters s s.exitSem
  have hzero : ∀ y : MonSem κ, MonPc.outside.inDown y = 0 := fun _ ↦ rfl
  refine ⟨hqueues, hunits.trans h.units, ?_, fun d ↦ ?_⟩
  · rw [hdown, hzero, add_zero]
    exact hcounters.1.trans h.nextCount
  · rw [hdown, hzero, add_zero]
    exact (congrFun hcounters.2 d).trans (h.count d)

theorem MonState.Ok.leave (h : s.Ok) (hp : s.pc p = .returned x) :
    ((s.leave x).setPc p .inside).Ok := by
  have hb : (s.pc p).blockedOn = none := by
    rw [hp]
    rfl
  have hsem : (s.leave x).sem = s.sem := by cases x <;> rfl
  have hpc : (s.leave x).pc = s.pc := by cases x <;> rfl
  have hqueues : (s.leave x).QueuesOk := by
    refine ⟨?_, ?_⟩
    · rw [hsem]
      exact h.queues.nonneg
    · rw [hsem, hpc]
      exact h.queues.agree
  have hunits : (s.leave x).units = 1 := by
    rw [MonState.units, hsem, hpc]
    exact h.units
  have hin : ∀ y : MonSem κ, (MonPc.inside : MonPc κ).inDown y = 0 := fun _ ↦ rfl
  have hret : ∀ y, (MonPc.returned x).inDown y = if x = y then 1 else 0 := inDown_before x
  refine ⟨hqueues.setPc (by rw [hpc]; exact hb) rfl, ?_, ?_, fun c ↦ ?_⟩
  · rw [units_setPc, hunits, hpc, hp, MonPc.unit_returned, MonPc.unit_inside]
    rfl
  all_goals
    rw [MonState.setPc]
    dsimp only
    rw [total_update, hpc, hp, hin, hret, add_zero]
  · cases x with
    | mutex => rw [if_neg (by simp), sub_zero]; exact h.nextCount
    | next => rw [if_pos rfl]; exact congrArg (· - 1) h.nextCount
    | cv d => rw [if_neg (by simp), sub_zero]; exact h.nextCount
  · cases x with
    | mutex => rw [if_neg (by simp), sub_zero]; exact h.count c
    | next => rw [if_neg (by simp), sub_zero]; exact h.count c
    | cv d =>
      rw [← h.count c]
      change Function.update s.count d (s.count d - 1) c = _
      rcases eq_or_ne c d with rfl | hc
      · rw [Function.update_self, if_pos rfl]
      · rw [Function.update_of_ne hc, if_neg (by simpa using hc.symm), sub_zero]

theorem MonStep.ok {t : MonState P κ} (hstep : MonStep s t) (h : s.Ok) : t.Ok := by
  cases hstep with
  | enter hpc =>
    refine h.setPc (by rw [hpc]; rfl) rfl ?_ fun x hx ↦ ?_
    · rw [hpc, MonPc.unit_before, MonPc.unit_outside]
    · rw [hpc, inDown_before, if_neg hx.symm]
      rfl
  | down hpc => exact h.down hpc
  | resume hpc =>
    refine h.setPc (by rw [hpc]; rfl) rfl ?_ fun x _ ↦ ?_
    · rw [hpc, MonPc.unit_returned, MonPc.unit_handed]
    · rw [hpc]
      rfl
  | proceed hpc => exact h.leave hpc
  | wait c hpc => exact h.condWait c hpc
  | signal c hpc => exact h.condSignal c hpc
  | exit hpc => exact h.exit hpc

theorem MonState.ok_of_reachable (h : Relation.ReflTransGen MonStep .init s) : s.Ok := by
  induction h with
  | refl => exact MonState.Ok.init
  | tail _ hstep ih => exact hstep.ok ih

/-! ## What a signal does -/

/-- A step in which no process becomes active. -/
def Quiet (s t : MonState P κ) : Prop := MonStep s t ∧ ∀ q, (t.pc q).Active → (s.pc q).Active

section Signal

variable {t : MonState P κ} {w q : P} {c : κ}

/-- A process that has been handed the unit keeps it until it resumes. -/
theorem MonStep.handed (hstep : MonStep s t) (h : s.Ok) (hw : s.pc w = .handed x) :
    t.pc w = .handed x ∨ t.pc w = .returned x := by
  have hunit : (s.pc w).unit = 1 := by rw [hw, MonPc.unit_handed]
  -- Whoever runs has the unit, so it is `w`, and `w` can only resume.
  have hrun : ∀ {p pc}, s.pc p = pc → pc.unit = 1 → pc = .handed x := fun hp hpc ↦
    hp.symm.trans (h.unique hunit (hp ▸ hpc) ▸ hw)
  cases hstep with
  | @enter p hpc =>
    refine .inl ((Function.update_of_ne ?_ _ _).trans hw)
    rintro rfl
    cases hw.symm.trans hpc
  | @down p y hpc =>
    have hne : w ≠ p := by
      rintro rfl
      cases hw.symm.trans hpc
    rcases s.down_cases p y with ⟨-, heq⟩ | ⟨-, heq⟩ <;> rw [heq] <;>
      exact .inl ((Function.update_of_ne hne _ _).trans hw)
  | @resume p y hpc =>
    obtain rfl : w = p := h.unique hunit (hpc ▸ MonPc.unit_handed y)
    obtain rfl := MonPc.handed.inj (hw.symm.trans hpc)
    exact .inr (Function.update_self ..)
  | proceed hpc => cases hrun hpc (MonPc.unit_returned _)
  | wait c hpc => cases hrun hpc MonPc.unit_inside
  | signal c hpc => cases hrun hpc MonPc.unit_inside
  | exit hpc => cases hrun hpc MonPc.unit_inside

/-- While a condition variable has the unit it goes to a process that is about to wait on it. -/
theorem MonStep.signalled (hstep : MonStep s t) (h : s.Ok) (hc : 0 < (s.sem (.cv c)).value) :
    (0 < (t.sem (.cv c)).value ∧ ∀ q, t.pc q = .before (.cv c) → s.pc q = .before (.cv c)) ∨
      ∃ q, s.pc q = .before (.cv c) ∧ t.pc q = .returned (.cv c) := by
  have hrun : ∀ {p pc}, s.pc p = pc → pc.unit ≠ 1 := fun hp hpc ↦
    h.value_of_unit (hp ▸ hpc) _ hc
  cases hstep with
  | @enter p hpc =>
    refine .inl ⟨hc, fun q hq ↦ ?_⟩
    rcases eq_or_ne q p with rfl | hne
    · cases (Function.update_self ..).symm.trans hq
    · exact (Function.update_of_ne hne _ _).symm.trans hq
  | @down p y hpc =>
    rcases s.down_cases p y with ⟨hv, heq⟩ | ⟨hv, heq⟩ <;> rw [heq]
    · obtain rfl := h.value_unique hv hc
      exact .inr ⟨p, hpc, Function.update_self ..⟩
    · have hne : MonSem.cv c ≠ y := by
        rintro rfl
        exact hv hc
      refine .inl ⟨?_, fun q hq ↦ ?_⟩
      · dsimp only
        rw [Function.update_of_ne hne]
        exact hc
      · rcases eq_or_ne q p with rfl | hqp
        · cases (Function.update_self ..).symm.trans hq
        · exact (Function.update_of_ne hqp _ _).symm.trans hq
  | resume hpc => exact absurd (MonPc.unit_handed _) (hrun hpc)
  | proceed hpc => exact absurd (MonPc.unit_returned _) (hrun hpc)
  | wait c hpc => exact absurd MonPc.unit_inside (hrun hpc)
  | signal c hpc => exact absurd MonPc.unit_inside (hrun hpc)
  | exit hpc => exact absurd MonPc.unit_inside (hrun hpc)

theorem handed_of_quiet {u : MonState P κ} (hrun : Relation.ReflTransGen Quiet u s) (h : u.Ok)
    (hw : u.pc w = .handed x) : s.Ok ∧ s.pc w = .handed x := by
  induction hrun with
  | refl => exact ⟨h, hw⟩
  | tail _ hquiet ih =>
    obtain ⟨hstep, hactive⟩ := hquiet
    refine ⟨hstep.ok ih.1, (hstep.handed ih.1 ih.2).resolve_right fun hret ↦ ?_⟩
    have hact := hactive w (hret ▸ trivial)
    rw [ih.2] at hact
    exact hact

theorem signalled_of_quiet {u : MonState P κ} (hrun : Relation.ReflTransGen Quiet u s) (h : u.Ok)
    (hc : 0 < (u.sem (.cv c)).value) : s.Ok ∧ 0 < (s.sem (.cv c)).value ∧
      ∀ q, s.pc q = .before (.cv c) → u.pc q = .before (.cv c) := by
  induction hrun with
  | refl => exact ⟨h, hc, fun _ ↦ id⟩
  | tail _ hquiet ih =>
    obtain ⟨hstep, hactive⟩ := hquiet
    refine ⟨hstep.ok ih.1, ?_⟩
    rcases hstep.signalled ih.1 ih.2.1 with ⟨hv, hpc⟩ | ⟨q, hq, hret⟩
    · exact ⟨hv, fun q hq ↦ ih.2.2 q (hpc q hq)⟩
    · have hact := hactive q (hret ▸ trivial)
      rw [hq] at hact
      exact absurd hact id

/-- The first process that becomes active after a signal was waiting on that condition variable and
not signalled before; it is the first in the queue if there is one. -/
theorem MonState.Ok.first_active (h : s.Ok) (hp : s.pc p = .inside) (hc : 0 < s.count c)
    {t' : MonState P κ} (hrun : Relation.ReflTransGen Quiet (s.condSignal p c) t)
    (hstep : MonStep t t') (hq : (t'.pc q).Active) :
    ((s.sem (.cv c)).queue = [] ∧ s.pc q = .before (.cv c)) ∨
      (s.sem (.cv c)).queue.head? = some q := by
  have hok : (s.condSignal p c).Ok := h.condSignal c hp
  have hsignal : s.condSignal p c =
      ({ s with nextCount := s.nextCount + 1 }.up (.cv c)).setPc p (.before .next) := if_pos hc
  have hunit := MonPc.unit_of_active hq
  rcases MonState.up_cases { s with nextCount := s.nextCount + 1 } (.cv c) with
    ⟨hqueue, heq⟩ | ⟨w, queue, hqueue, heq⟩
  · have hv : 0 < ((s.condSignal p c).sem (.cv c)).value := by
      have hnonneg := h.queues.nonneg (.cv c)
      rw [hsignal, heq, MonState.setPc]
      dsimp only
      rw [Function.update_self, incInt_of_lt (h.value_lt _)]
      exact Int.lt_add_one_of_le hnonneg
    have hbefore : ∀ q, (s.condSignal p c).pc q = .before (.cv c) → s.pc q = .before (.cv c) := by
      intro q hq
      rw [hsignal, heq] at hq
      rcases eq_or_ne q p with rfl | hne
      · cases (Function.update_self ..).symm.trans hq
      · exact (Function.update_of_ne hne _ _).symm.trans hq
    obtain ⟨hokt, hvt, hfrom⟩ := signalled_of_quiet hrun hok hv
    rcases hstep.signalled hokt hvt with ⟨hv', -⟩ | ⟨r, hr, hret⟩
    · exact absurd hv' ((hstep.ok hokt).value_of_unit hunit _)
    · obtain rfl : r = q := (hstep.ok hokt).unique (hret ▸ MonPc.unit_returned _) hunit
      exact .inl ⟨hqueue, hbefore r (hfrom r hr)⟩
  · have hblocked : s.pc w = .blocked (.cv c) :=
      MonPc.eq_blocked (h.queues.agree.place_head hqueue)
    have hne : w ≠ p := by
      rintro rfl
      cases hblocked.symm.trans hp
    have hw : (s.condSignal p c).pc w = .handed (.cv c) := by
      rw [hsignal, heq]
      exact (Function.update_of_ne hne _ _).trans (Function.update_self ..)
    obtain ⟨hokt, hwt⟩ := handed_of_quiet hrun hok hw
    have hwunit : (t'.pc w).unit = 1 := by
      rcases hstep.handed hokt hwt with hw' | hw' <;> rw [hw']
      · exact MonPc.unit_handed _
      · exact MonPc.unit_returned _
    obtain rfl : w = q := (hstep.ok hokt).unique hwunit hunit
    refine .inr ?_
    change (s.sem (.cv c)).queue = w :: queue at hqueue
    rw [hqueue]
    rfl

end Signal

omit [DecidableEq P] [Fintype P] in
theorem total_value (sem : MonSem κ → Sem P) : total Sem.value sem =
    (sem .mutex).value + (sem .next).value + ∑ c, (sem (.cv c)).value := by
  have huniv : (Finset.univ : Finset (MonSem κ)) =
      insert .mutex (insert .next (Finset.univ.image .cv)) := rfl
  rw [total, huniv, Finset.sum_insert (by simp), Finset.sum_insert (by simp),
    Finset.sum_image fun _ _ _ _ h ↦ MonSem.cv.inj h, add_assoc]

/-- In every state of a monitor at most one process is active; `next_count` and the counters of the
condition variables count the processes between `count ++` and `count --`; there is one unit of
control; and after a signal the first process to become active is a waiter of that condition
variable, the first in its queue if one is there. -/
theorem monitor_hoare (h : Relation.ReflTransGen MonStep .init s) :
    (∀ p q, (s.pc p).Active → (s.pc q).Active → p = q) ∧
      s.nextCount = (Finset.univ.filter fun p ↦ (s.pc p).sem? = some .next).card ∧
      (∀ c, s.count c = (Finset.univ.filter fun p ↦ (s.pc p).sem? = some (.cv c)).card) ∧
      (s.sem .mutex).value + (s.sem .next).value + ∑ c, (s.sem (.cv c)).value +
        (Finset.univ.filter fun p ↦ (s.pc p).Active ∨ (s.pc p).Handed).card = 1 ∧
      ∀ p c, s.pc p = .inside → 0 < s.count c → ∀ t t' q,
        Relation.ReflTransGen Quiet (s.condSignal p c) t → MonStep t t' → (t'.pc q).Active →
          ((s.sem (.cv c)).queue = [] ∧ s.pc q = .before (.cv c)) ∨
            (s.sem (.cv c)).queue.head? = some q := by
  have hok := MonState.ok_of_reachable h
  refine ⟨fun p q hp hq ↦ ?_, ?_, fun c ↦ ?_, ?_, fun p c hp hc t t' q hrun hstep hq ↦ ?_⟩
  · exact hok.unique (MonPc.unit_of_active hp) (MonPc.unit_of_active hq)
  · rw [hok.nextCount]
    exact total_ite_eq_card _ _
  · rw [hok.count]
    exact total_ite_eq_card _ _
  · have hunits := hok.units
    rw [MonState.units, total_value] at hunits
    rw [← hunits]
    congr 1
    exact (total_ite_eq_card (fun pc : MonPc κ ↦ pc.Active ∨ pc.Handed) s.pc).symm
  · exact hok.first_active hp hc hrun hstep hq

end Units

/-- Process 0 waits in the queue of the only condition variable, and process 1 is in the monitor. -/
def waiterState : MonState (Fin 2) Unit :=
  let s := (((MonState.init.setPc 0 (.before .mutex)).down 0 .mutex).setPc 0 .inside).condWait 0 ()
  (((s.down 0 (.cv ())).setPc 1 (.before .mutex)).down 1 .mutex).setPc 1 .inside

theorem waiterState_reachable : Relation.ReflTransGen MonStep .init waiterState := by
  have h₁ : Relation.ReflTransGen MonStep (.init : MonState (Fin 2) Unit) _ :=
    .single (.enter (p := 0) rfl)
  have h₂ := h₁.tail (.down (p := 0) (x := .mutex) rfl)
  have h₃ := h₂.tail (.proceed (p := 0) (x := .mutex) rfl)
  have h₄ := h₃.tail (.wait (p := 0) () rfl)
  have h₅ := h₄.tail (.down (p := 0) (x := .cv ()) rfl)
  have h₆ := h₅.tail (.enter (p := 1) rfl)
  have h₇ := h₆.tail (.down (p := 1) (x := .mutex) rfl)
  exact h₇.tail (.proceed (p := 1) (x := .mutex) rfl)

/-- Process 0 is the first to become active after process 1 signals. -/
theorem monitor_hoare_sample : waiterState.nextCount = 0 ∧ waiterState.count () = 1 ∧
    ∀ t t' q, Relation.ReflTransGen Quiet (waiterState.condSignal 1 ()) t → MonStep t t' →
      (t'.pc q).Active → q = 0 := by
  obtain ⟨-, hnext, hcount, -, hsignal⟩ := monitor_hoare waiterState_reachable
  refine ⟨hnext.trans (by decide), (hcount ()).trans (by decide), fun t t' q hrun hstep hq ↦ ?_⟩
  rcases hsignal 1 () rfl (by decide) t t' q hrun hstep hq with ⟨hnil, -⟩ | hhead
  · cases hnil
  · exact (Option.some.inj hhead).symm

/-- Between the `up` of `cond_signal` and the waiter's `cv.count --` the counter is larger than the
number of processes that wait and have not been signalled. -/
theorem count_ne_waiting : ¬∀ s : MonState (Fin 2) Unit,
    Relation.ReflTransGen MonStep .init s → ∀ c, s.count c =
      (Finset.univ.filter fun p ↦ s.pc p = .before (.cv c) ∨ s.pc p = .blocked (.cv c)).card := by
  intro h
  have hsignal : MonStep waiterState (waiterState.condSignal 1 ()) := .signal () rfl
  have hcount := h _ (waiterState_reachable.tail hsignal) ()
  revert hcount
  decide

end Ucore
