import Mathlib.Tactic
import Ucore.Errno
import Ucore.Lib.DeltaList
import Ucore.Lib.Prog

/-!
# Timers

The timer list of `kern/schedule/sched.c`. A timer is named by the address of its `timer_t`, and the
doubly linked list through `timer_link` is the list of the timers on it. Waking the processes of the
expired timers is left to the caller, who gets the timers in the order `run_timer_list` meets them.

## Countdowns

The list is delta-encoded: a timer stores the ticks that it expires after the one before it. What it
stands for is `countdowns`, where every timer counts down on its own from the number it was added
with, and knows nothing of the others. `TimersOk` relates the list after a sequence of calls to the
countdowns after the same calls (`DeltaList.Encodes`), and `add_timer`, `del_timer` and
`run_timer_list` keep it.

So a tick reports exactly the timers whose own countdown has come to zero, in the order in which
they were added, and no assertion of `run_timer_list` fails (`runTimers_reports`).
-/

namespace Ucore

open Prog

/-- `timer_t`. -/
structure Timer where
  id : ℕ
  expires : ℕ
  proc : Option ℕ
  deriving DecidableEq, Repr

/-! ## The code -/

/-- The loop of `add_timer`, with the insertion behind it. -/
def addTimerLoop (timer : Timer) : List Timer → List Timer
  | [] => [timer]
  | next :: list =>
    if timer.expires < next.expires then
      timer :: { next with expires := next.expires - timer.expires } :: list
    else next :: addTimerLoop { timer with expires := timer.expires - next.expires } list

def addTimer (timer : Timer) : Prog Errno (List Timer) Unit := do
  assert (0 < timer.expires ∧ timer.proc ≠ none)
  let list ← get
  assert (∀ t ∈ list, t.id ≠ timer.id)
  modify (addTimerLoop timer)

/-- What `del_timer` does to the rest of the list before it takes `timer` out. -/
def giveBack (timer : Timer) : List Timer → List Timer
  | [] => []
  | next :: list =>
    if timer.expires ≠ 0 then
      { next with expires := (next.expires + timer.expires) % 2 ^ 32 } :: list
    else next :: list

/-- `del_timer`, which does nothing to a timer that is on no list. -/
def delTimerList (id : ℕ) : List Timer → List Timer
  | [] => []
  | timer :: list => if timer.id = id then giveBack timer list else timer :: delTimerList id list

def delTimer (id : ℕ) : Prog Errno (List Timer) Unit := modify (delTimerList id)

/-- The inner loop of `run_timer_list`, with the nodes from `timer` on. -/
def runTimerLoop : List Timer → Prog Errno (List Timer) (List Timer)
  | [] => return []
  | timer :: list =>
    if timer.expires = 0 then do
      delTimer timer.id
      let rest ← runTimerLoop list
      return timer :: rest
    else
      return []

/-- `run_timer_list`, up to waking processes. -/
def runTimerList : Prog Errno (List Timer) (List Timer) := do
  match ← get with
  | [] => return []
  | timer :: list =>
    assert (timer.expires ≠ 0)
    modify fun _ ↦ { timer with expires := timer.expires - 1 } :: list
    runTimerLoop ({ timer with expires := timer.expires - 1 } :: list)

/-! ## Runs -/

/-- A call on the timer list. -/
inductive TimerOp
  | add (id proc expires : ℕ)
  | del (id : ℕ)
  | tick
  deriving DecidableEq, Repr

/-- The call, and the timers that expired in it. -/
def TimerOp.run : TimerOp → Prog Errno (List Timer) (List ℕ)
  | add id proc expires => do
    addTimer ⟨id, expires, some proc⟩
    return []
  | del id => do
    delTimer id
    return []
  | tick => do
    let timers ← runTimerList
    return timers.map Timer.id

/-- The calls in turn. -/
def runTimers : List TimerOp → Prog Errno (List Timer) (List (List ℕ))
  | [] => return []
  | op :: ops => do
    let ids ← op.run
    let rest ← runTimers ops
    return ids :: rest

/-! ## Independent countdowns -/

/-- The number of calls of `run_timer_list`. -/
def ticks : List TimerOp → ℕ
  | [] => 0
  | .tick :: ops => ticks ops + 1
  | .add _ _ _ :: ops => ticks ops
  | .del _ :: ops => ticks ops

/-- The timers that run after these calls, in the order they were added, with the number of calls of
`run_timer_list` until they expire. -/
def countdowns : List TimerOp → List (ℕ × ℕ)
  | [] => []
  | .add id _ expires :: ops =>
    if ticks ops < expires ∧ .del id ∉ ops then (id, expires - ticks ops) :: countdowns ops
    else countdowns ops
  | .del _ :: ops => countdowns ops
  | .tick :: ops => countdowns ops

/-- The timers that expire with the last of these calls: those that were added exactly `expires`
calls of `run_timer_list` ago and not deleted since, in the order they were added. -/
def expired : List TimerOp → List ℕ
  | [] => []
  | .add id _ expires :: ops =>
    if ticks ops = expires ∧ .del id ∉ ops then id :: expired ops else expired ops
  | .del _ :: ops => expired ops
  | .tick :: ops => expired ops

/-- What the calls `ops` report after the calls `past`. -/
def reports (past : List TimerOp) : List TimerOp → List (List ℕ)
  | [] => []
  | op :: ops =>
    (if op = .tick then expired (past ++ [op]) else []) :: reports (past ++ [op]) ops

/-- Every timer is added with at least one tick to go and while it is on no list, which `add_timer`
asserts. -/
def Proper (past : List TimerOp) : List TimerOp → Prop
  | [] => True
  | .add id proc expires :: ops =>
    (0 < expires ∧ expires < 2 ^ 32 ∧ ∀ c ∈ countdowns past, c.1 ≠ id) ∧
      Proper (past ++ [.add id proc expires]) ops
  | .del id :: ops => Proper (past ++ [.del id]) ops
  | .tick :: ops => Proper (past ++ [.tick]) ops

section Countdowns

variable {past : List TimerOp} {id proc expires : ℕ}

theorem ticks_append (past ops : List TimerOp) : ticks (past ++ ops) = ticks past + ticks ops := by
  induction past with
  | nil => exact (Nat.zero_add _).symm
  | cons op past ih =>
    cases op with
    | add => exact ih
    | del => exact ih
    | tick =>
      change ticks (past ++ ops) + 1 = ticks past + 1 + ticks ops
      rw [ih]
      omega

theorem countdowns_add (h : 0 < expires) :
    countdowns (past ++ [.add id proc expires]) = countdowns past ++ [(id, expires)] := by
  induction past with
  | nil => simp [countdowns, ticks, h]
  | cons op past ih =>
    cases op with
    | add id' proc' expires' =>
      have hdel : .del id' ∉ past ++ [TimerOp.add id proc expires] ↔ .del id' ∉ past := by simp
      have hticks : ticks (past ++ [.add id proc expires]) = ticks past := ticks_append _ _
      rw [List.cons_append, countdowns, countdowns, hticks, ih]
      by_cases hrun : ticks past < expires' ∧ .del id' ∉ past
      · rw [if_pos hrun, if_pos ⟨hrun.1, hdel.mpr hrun.2⟩, List.cons_append]
      · rw [if_neg hrun, if_neg fun hc ↦ hrun ⟨hc.1, hdel.mp hc.2⟩]
    | del => exact ih
    | tick => exact ih

theorem countdowns_del :
    countdowns (past ++ [.del id]) = (countdowns past).filter fun c ↦ c.1 ≠ id := by
  induction past with
  | nil => rfl
  | cons op past ih =>
    cases op with
    | add id' proc' expires' =>
      have hdel : .del id' ∉ past ++ [TimerOp.del id] ↔ .del id' ∉ past ∧ id' ≠ id := by
        simp [not_or]
      have hticks : ticks (past ++ [.del id]) = ticks past := ticks_append _ _
      rw [List.cons_append, countdowns, countdowns, hticks, ih]
      by_cases hrun : ticks past < expires' ∧ .del id' ∉ past
      · rw [if_pos hrun, List.filter_cons]
        by_cases hid : id' = id
        · rw [if_neg fun hc ↦ (hdel.mp hc.2).2 hid, if_neg (by simpa using hid)]
        · rw [if_pos ⟨hrun.1, hdel.mpr ⟨hrun.2, hid⟩⟩, if_pos (by simpa using hid)]
      · rw [if_neg hrun, if_neg fun hc ↦ hrun ⟨hc.1, (hdel.mp hc.2).1⟩]
    | del => exact ih
    | tick => exact ih

theorem countdowns_tick :
    countdowns (past ++ [.tick]) = DeltaList.remaining (countdowns past) := by
  induction past with
  | nil => rfl
  | cons op past ih =>
    cases op with
    | add id' proc' expires' =>
      have hdel : .del id' ∉ past ++ [TimerOp.tick] ↔ .del id' ∉ past := by simp
      have hticks : ticks (past ++ [.tick]) = ticks past + 1 := ticks_append _ _
      rw [List.cons_append, countdowns, countdowns, hticks, ih]
      by_cases hrun : ticks past < expires' ∧ .del id' ∉ past
      · rw [if_pos hrun, DeltaList.remaining_cons]
        by_cases hlast : expires' - ticks past = 1
        · rw [if_neg fun hc ↦ by omega, if_pos hlast]
        · rw [if_pos ⟨by omega, hdel.mpr hrun.2⟩, if_neg hlast, Nat.sub_add_eq]
      · rw [if_neg hrun, if_neg fun hc ↦ hrun ⟨by omega, hdel.mp hc.2⟩]
    | del => exact ih
    | tick => exact ih

theorem expired_tick :
    expired (past ++ [.tick]) = (DeltaList.expiring (countdowns past)).map Prod.fst := by
  induction past with
  | nil => rfl
  | cons op past ih =>
    cases op with
    | add id' proc' expires' =>
      have hdel : .del id' ∉ past ++ [TimerOp.tick] ↔ .del id' ∉ past := by simp
      have hticks : ticks (past ++ [.tick]) = ticks past + 1 := ticks_append _ _
      rw [List.cons_append, expired, countdowns, hticks, ih]
      by_cases hrun : ticks past < expires' ∧ .del id' ∉ past
      · rw [if_pos hrun, DeltaList.expiring_cons]
        by_cases hlast : expires' - ticks past = 1
        · rw [if_pos ⟨by omega, hdel.mpr hrun.2⟩, if_pos hlast, List.map_cons]
        · rw [if_neg fun hc ↦ by omega, if_neg hlast]
      · rw [if_neg hrun, if_neg fun hc ↦ hrun ⟨by have := hc.1; omega, hdel.mp hc.2⟩]
    | del => exact ih
    | tick => exact ih

end Countdowns

/-! ## The list stands for the countdowns -/

/-- The entries of the delta-encoded queue. -/
def Timer.entry (t : Timer) : ℕ × ℕ := (t.id, t.expires)

section Refines

variable {list : List Timer}

theorem entry_addTimerLoop (timer : Timer) (list : List Timer) :
    (addTimerLoop timer list).map Timer.entry
      = DeltaList.insert timer.id timer.expires (list.map Timer.entry) := by
  induction list generalizing timer with
  | nil => rfl
  | cons next list ih =>
    rw [addTimerLoop, List.map_cons, DeltaList.insert]
    change (if timer.expires < next.expires then _ else _ : List Timer).map Timer.entry
      = if timer.expires < next.expires then _ else _
    by_cases h : timer.expires < next.expires
    · rw [if_pos h, if_pos h]
      rfl
    · rw [if_neg h, if_neg h, List.map_cons, ih]
      rfl

/-- Deleting gives the successor what it needs, and the sum fits the field. -/
theorem entry_delTimerList {b : ℕ} (id : ℕ)
    (hlt : ∀ e ∈ DeltaList.absolute b (list.map Timer.entry), e.2 < 2 ^ 32) :
    (delTimerList id list).map Timer.entry = DeltaList.erase id (list.map Timer.entry) := by
  induction list generalizing b with
  | nil => rfl
  | cons timer list ih =>
    rw [delTimerList, List.map_cons, DeltaList.erase]
    change (if timer.id = id then _ else _ : List Timer).map Timer.entry
      = if timer.id = id then _ else _
    by_cases h : timer.id = id
    · rw [if_pos h, if_pos h]
      cases list with
      | nil => rfl
      | cons next list =>
        have hsum : b + timer.expires + next.expires < 2 ^ 32 :=
          hlt (next.id, b + timer.expires + next.expires)
            (List.mem_cons_of_mem _ List.mem_cons_self)
        have hmod : (next.expires + timer.expires) % 2 ^ 32 = next.expires + timer.expires :=
          Nat.mod_eq_of_lt (by omega)
        rw [giveBack, hmod]
        by_cases hzero : timer.expires = 0
        · rw [if_neg (not_not.mpr hzero)]
          change _ = (next.id, next.expires + timer.expires) :: _
          rw [hzero]
          rfl
        · rw [if_pos hzero]
          rfl
    · rw [if_neg h, if_neg h, List.map_cons, ih fun e he ↦ hlt e (List.mem_cons_of_mem _ he)]

theorem entry_takeWhile (list : List Timer) :
    (list.takeWhile fun t ↦ t.expires = 0).map Timer.entry
      = DeltaList.due (list.map Timer.entry) := by
  rw [DeltaList.due, List.takeWhile_map]
  rfl

theorem entry_dropWhile (list : List Timer) :
    (list.dropWhile fun t ↦ t.expires = 0).map Timer.entry
      = DeltaList.later (list.map Timer.entry) := by
  rw [DeltaList.later, List.dropWhile_map]
  rfl

/-- The loop takes the expired timers off the front, whatever is behind them. -/
theorem runTimerLoop_eq (list : List Timer) :
    (runTimerLoop list).run list
      = .ok (list.takeWhile fun t ↦ t.expires = 0) (list.dropWhile fun t ↦ t.expires = 0) := by
  induction list with
  | nil => rfl
  | cons timer list ih =>
    rw [runTimerLoop, List.takeWhile_cons, List.dropWhile_cons]
    by_cases h : timer.expires = 0
    · have hdel : (delTimer timer.id).run (timer :: list) = .ok () list := by
        rw [delTimer, run_modify, delTimerList, if_pos rfl]
        cases list with
        | nil => rfl
        | cons next list => rw [giveBack, if_neg (not_not.mpr h)]
      rw [if_pos h, if_pos (decide_eq_true h), if_pos (decide_eq_true h), bind_of_ok hdel,
        bind_of_ok ih, run_pure]
    · rw [if_neg h, if_neg (by simpa using h), if_neg (by simpa using h), run_pure]

/-- The list after these calls: it encodes the countdowns, and none is longer than what a timer
holds. -/
structure TimersOk (past : List TimerOp) (list : List Timer) : Prop where
  encodes : DeltaList.Encodes (list.map Timer.entry) (countdowns past)
  lt : ∀ c ∈ countdowns past, c.2 < 2 ^ 32

variable {past : List TimerOp}

theorem TimersOk.nil : TimersOk [] [] :=
  ⟨DeltaList.encodes_nil, fun _ hc ↦ absurd hc List.not_mem_nil⟩

theorem TimersOk.addTimer (h : TimersOk past list) {id p expires : ℕ} (hpos : 0 < expires)
    (hlt : expires < 2 ^ 32) (hid : ∀ c ∈ countdowns past, c.1 ≠ id) :
    (addTimer ⟨id, expires, some p⟩).run list
        = .ok () (addTimerLoop ⟨id, expires, some p⟩ list) ∧
      TimersOk (past ++ [.add id p expires]) (addTimerLoop ⟨id, expires, some p⟩ list) := by
  have hnew : id ∉ (countdowns past).map Prod.fst := by
    rintro hmem
    obtain ⟨c, hc, hcid⟩ := List.mem_map.mp hmem
    exact hid c hc hcid
  have hfree : ∀ t ∈ list, t.id ≠ id := by
    rintro t ht rfl
    refine hnew ((h.encodes.keys t.id).mp ?_)
    rw [List.map_map]
    exact List.mem_map_of_mem (f := Prod.fst ∘ Timer.entry) ht
  refine ⟨?_, ?_, ?_⟩
  · rw [Ucore.addTimer, assert_bind_run ⟨hpos, Option.some_ne_none _⟩, get_bind_run,
      assert_bind_run hfree, run_modify]
  · rw [entry_addTimerLoop, countdowns_add hpos]
    exact h.encodes.insert hnew hpos.ne'
  · intro c hc
    rw [countdowns_add hpos] at hc
    rcases List.mem_append.mp hc with hc | hc
    · exact h.lt c hc
    · rw [List.mem_singleton.mp hc]
      exact hlt

theorem TimersOk.add (h : TimersOk past list) {id proc expires : ℕ} (hpos : 0 < expires)
    (hlt : expires < 2 ^ 32) (hid : ∀ c ∈ countdowns past, c.1 ≠ id) :
    ∃ list', (TimerOp.add id proc expires).run.run list = .ok [] list' ∧
      TimersOk (past ++ [.add id proc expires]) list' := by
  obtain ⟨hrun, hok⟩ := h.addTimer (p := proc) hpos hlt hid
  refine ⟨_, ?_, hok⟩
  rw [TimerOp.run, bind_of_ok hrun, run_pure]

/-- No timer on the list has the number of a countdown that does not run. -/
theorem TimersOk.ne_of_countdowns (h : TimersOk past list) {id : ℕ} (hid : ∀ t ∈ list, t.id ≠ id) :
    ∀ c ∈ countdowns past, c.1 ≠ id := by
  intro c hc hcid
  have hmem := (h.encodes.keys c.1).mpr (List.mem_map_of_mem hc)
  rw [List.map_map] at hmem
  obtain ⟨t, ht, htid⟩ := List.mem_map.mp hmem
  exact hid t ht (htid.trans hcid)

theorem TimersOk.delTimerList (h : TimersOk past list) (id : ℕ) :
    TimersOk (past ++ [.del id]) (delTimerList id list) where
  encodes := by
    rw [entry_delTimerList id fun e he ↦ h.lt e (h.encodes.mem_iff.mp he), countdowns_del]
    exact h.encodes.erase id
  lt c hc := by
    rw [countdowns_del] at hc
    exact h.lt c (List.mem_of_mem_filter hc)

theorem TimersOk.del (h : TimersOk past list) (id : ℕ) :
    ∃ list', (TimerOp.del id).run.run list = .ok [] list' ∧
      TimersOk (past ++ [.del id]) list' :=
  ⟨Ucore.delTimerList id list, rfl, h.delTimerList id⟩

/-- The timers that expire are taken off the front of the list. -/
theorem runTimerList_cons {timer : Timer} (hne : timer.expires ≠ 0) (list : List Timer) :
    runTimerList.run (timer :: list)
      = .ok (({ timer with expires := timer.expires - 1 } :: list).takeWhile fun t ↦ t.expires = 0)
        (({ timer with expires := timer.expires - 1 } :: list).dropWhile
          fun t ↦ t.expires = 0) := by
  rw [runTimerList, get_bind_run]
  change (assert (timer.expires ≠ 0) >>= _ : Prog Errno (List Timer) (List Timer)).run _ = _
  rw [assert_bind_run hne, modify_bind_run]
  exact runTimerLoop_eq _

theorem TimersOk.tick (h : TimersOk past list) :
    ∃ list', TimerOp.tick.run.run list = .ok (expired (past ++ [.tick])) list' ∧
      TimersOk (past ++ [.tick]) list' := by
  rw [expired_tick]
  have hlt : ∀ c ∈ DeltaList.remaining (countdowns past), c.2 < 2 ^ 32 := by
    intro c hc
    obtain ⟨e, he, rfl⟩ := List.mem_map.mp hc
    have := h.lt e (List.mem_of_mem_filter he)
    change e.2 - 1 < 2 ^ 32
    omega
  cases list with
  | nil =>
    have hnone : countdowns past = [] := by
      refine List.eq_nil_iff_forall_not_mem.mpr fun c hc ↦ ?_
      have hmem := h.encodes.mem_iff.mpr hc
      cases hmem
    refine ⟨[], ?_, ?_, ?_⟩
    · rw [hnone]
      rfl
    · rw [countdowns_tick, hnone]
      exact DeltaList.encodes_nil
    · rw [countdowns_tick]
      exact hlt
  | cons timer list =>
    have hne : timer.expires ≠ 0 := h.encodes.head_ne_zero
    obtain ⟨hdue, hlater⟩ := h.encodes.tick
    set timer' : Timer := { timer with expires := timer.expires - 1 } with htimer
    have hdec : DeltaList.decrement (timer.entry :: list.map Timer.entry)
        = (timer' :: list).map Timer.entry := rfl
    refine ⟨(timer' :: list).dropWhile fun t ↦ t.expires = 0, ?_, ?_, ?_⟩
    · rw [TimerOp.run, bind_of_ok (runTimerList_cons hne list), run_pure, ← hdue, hdec,
        ← entry_takeWhile, List.map_map]
      rfl
    · rw [entry_dropWhile, countdowns_tick]
      exact hlater
    · rw [countdowns_tick]
      exact hlt

/-- The calls report what independent countdowns report, and no assertion fails. -/
theorem TimersOk.runTimers_eq {ops : List TimerOp} (h : TimersOk past list) (hp : Proper past ops) :
    ∃ list', (runTimers ops).run list = .ok (reports past ops) list' := by
  induction ops generalizing past list with
  | nil => exact ⟨list, rfl⟩
  | cons op ops ih =>
    -- what the first call reports and leaves
    have hstep : ∃ list₁, op.run.run list
          = .ok (if op = .tick then expired (past ++ [op]) else []) list₁ ∧
        TimersOk (past ++ [op]) list₁ ∧ Proper (past ++ [op]) ops := by
      cases op with
      | add id proc expires =>
        obtain ⟨⟨hpos, hlt, hid⟩, hrest⟩ := hp
        obtain ⟨list₁, hrun, hok⟩ := h.add hpos hlt hid
        exact ⟨list₁, hrun, hok, hrest⟩
      | del id =>
        obtain ⟨list₁, hrun, hok⟩ := h.del id
        exact ⟨list₁, hrun, hok, hp⟩
      | tick =>
        obtain ⟨list₁, hrun, hok⟩ := h.tick
        exact ⟨list₁, hrun, hok, hp⟩
    obtain ⟨list₁, hrun, hok, hrest⟩ := hstep
    obtain ⟨list', hrun'⟩ := ih hok hrest
    exact ⟨list', by rw [runTimers, bind_of_ok hrun, bind_of_ok hrun', run_pure, reports]⟩

/-- A timer without its time. -/
def Timer.owner (t : Timer) : ℕ × Option ℕ := (t.id, t.proc)

theorem owner_addTimerLoop (timer : Timer) (list : List Timer) :
    ((addTimerLoop timer list).map Timer.owner).Perm (timer.owner :: list.map Timer.owner) := by
  induction list generalizing timer with
  | nil => exact List.Perm.refl _
  | cons next list ih =>
    rw [addTimerLoop]
    by_cases h : timer.expires < next.expires
    · rw [if_pos h]
      exact List.Perm.refl _
    · rw [if_neg h]
      exact ((ih _).cons next.owner).trans (List.Perm.swap ..)

theorem owner_giveBack (timer : Timer) (list : List Timer) :
    (giveBack timer list).map Timer.owner = list.map Timer.owner := by
  cases list with
  | nil => rfl
  | cons next list =>
    rw [giveBack]
    split_ifs <;> rfl

theorem owner_delTimerList (id : ℕ) (list : List Timer) :
    ((delTimerList id list).map Timer.owner).Sublist (list.map Timer.owner) := by
  induction list with
  | nil => exact List.Sublist.refl _
  | cons timer list ih =>
    rw [delTimerList]
    by_cases h : timer.id = id
    · rw [if_pos h, owner_giveBack]
      exact List.sublist_cons_self ..
    · rw [if_neg h]
      exact ih.cons_cons _

/-- A deleted timer is off the list. -/
theorem TimersOk.ne_of_mem_del (h : TimersOk past list) {id : ℕ} {t : Timer}
    (ht : t ∈ Ucore.delTimerList id list) : t.id ≠ id := by
  intro htid
  have hmem := ((h.delTimerList id).encodes.keys t.id).mp (by
    rw [List.map_map]
    exact List.mem_map_of_mem (f := Prod.fst ∘ Timer.entry) ht)
  rw [countdowns_del] at hmem
  obtain ⟨c, hc, hcid⟩ := List.mem_map.mp hmem
  have hne : c.1 ≠ id := by simpa using List.of_mem_filter hc
  exact hne (hcid.trans htid)

/-- `run_timer_list` returns, and every timer either expires or stays on the list. -/
theorem TimersOk.runTimerList (h : TimersOk past list) : ∃ expired list',
    runTimerList.run list = .ok expired list' ∧ TimersOk (past ++ [.tick]) list' ∧
      (expired ++ list').map Timer.owner = list.map Timer.owner := by
  obtain ⟨list', hrun, hok⟩ := h.tick
  cases list with
  | nil =>
    have hlist : TimerOp.tick.run.run [] = .ok [] [] := rfl
    refine ⟨[], [], rfl, ?_, rfl⟩
    obtain ⟨-, rfl⟩ := Outcome.ok.inj (hlist.symm.trans hrun)
    exact hok
  | cons timer list =>
    have hne : timer.expires ≠ 0 := h.encodes.head_ne_zero
    have hlist := runTimerList_cons hne list
    refine ⟨_, _, hlist, ?_, ?_⟩
    · rw [TimerOp.run, bind_of_ok hlist, run_pure] at hrun
      obtain ⟨-, rfl⟩ := Outcome.ok.inj hrun
      exact hok
    · rw [List.takeWhile_append_dropWhile]
      rfl

end Refines

/-- From the empty list on, every call of `run_timer_list` expires exactly the timers that were
added as many calls ago as they were added with and not deleted since, in the order they were
added. -/
theorem runTimers_reports {ops : List TimerOp} (h : Proper [] ops) :
    ∃ list, (runTimers ops).run [] = .ok (reports [] ops) list := by
  exact TimersOk.nil.runTimers_eq h

/-- Two timers due at the same tick, one deleted before, one added in between. -/
theorem runTimers_reports_sample :
    ∃ list,
      (runTimers [.add 1 9 3, .add 2 9 3, .tick, .add 3 9 1, .add 4 9 2, .del 1, .tick, .tick]).run
      [] = .ok [[], [], [], [], [], [], [3], [2, 4]] list :=
  runTimers_reports (by simp [Proper, countdowns, ticks])

end Ucore
