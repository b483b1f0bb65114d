import Ucore.Proc.RunQueue

/-!
# The run queue in every run

Every section keeps what `Kernel.RunOk` says, so it holds in every state of every run in which no
call of `do_fork` fails in `copy_files`, which frees a process that is already in the run queue
(`ForksPublish`).

A section is run from a state that is `Running`: the process on the processor is runnable, its wait
flag is clear, and what it has still to do is tidy. In the middle of a section it may go to sleep or
exit; the section then ends in `schedule`, and it is the next process for which the invariant is
shown. So the work is in the sections that put a process to sleep, wake one or make one, and the
others only have to leave alone what the scheduler looks at. This module has `up` and `down`,
`do_sleep` with the timers, `do_wait` and `do_kill`; `ForkRuns` has `do_fork`, and `ExitRuns` the
rest.
-/

namespace Ucore

open Prog

/-- The calls of `do_fork` that the results on the scheduler are about: `copy_files` succeeds. -/
def ForksPublish (_ : Kernel) : Section → Prop
  | .forkFiles flags _ mem => flags &&& cloneFs ≠ 0 ∨ mem.files.addr ≠ none
  | _ => True

instance ForksPublish.decidable (s : Kernel) (i : Section) : Decidable (ForksPublish s i) := by
  cases i <;> unfold ForksPublish <;> infer_instance

namespace Kernel

variable {s t : Kernel}

/-- The current process is in the middle of a section that is run in state `PROC_RUNNABLE`. -/
structure Running (s : Kernel) : Prop where
  ok : s.RunOk
  runnable : (s.proc s.current).state = .runnable
  zero : (s.proc s.current).waitState = 0
  tidy : Tidy (s.code s.current)
  not_idle : s.current ≠ s.idleproc

theorem Running.congr (h : s.Running) (hsame : SameSched s t) : t.Running where
  ok := h.ok.congr hsame
  runnable := by
    rw [hsame.current, hsame.state]
    exact h.runnable
  zero := by
    rw [hsame.current, hsame.waitState]
    exact h.zero
  tidy := by
    rw [hsame.current, hsame.code]
    exact h.tidy
  not_idle := by
    rw [hsame.current, hsame.idleproc]
    exact h.not_idle

/-- What the current process has still to do changes. -/
theorem Running.setCode (h : s.Running) {l : List Section} (hl : Tidy l)
    (hemb : ∀ p, embryo? l = some p → p ∈ s.live ∧ (s.proc p).state = .uninit ∧
      ∀ q, embryo? (s.code q) = some p → q = s.current) : (s.setCode s.current l).Running where
  ok := h.ok.setCode h.runnable h.zero h.tidy.not_atTimer hl (fun hc ↦ absurd hc h.not_idle) hemb
  runnable := h.runnable
  zero := h.zero
  tidy := by
    rw [show (s.setCode s.current l).current = s.current from rfl, setCode_self]
    exact hl
  not_idle := h.not_idle

/-- The embryo that the current process is about to publish stays the same. -/
theorem Running.embryo_mono (h : s.Running) {l : List Section}
    (hl : ∀ p, embryo? l = some p → embryo? (s.code s.current) = some p) :
    ∀ p, embryo? l = some p → p ∈ s.live ∧ (s.proc p).state = .uninit ∧
      ∀ q, embryo? (s.code q) = some p → q = s.current := by
  intro p hp
  obtain ⟨hlive, hun⟩ := h.ok.sched.embryo p s.current (hl p hp)
  exact ⟨hlive, hun, fun q hq ↦ h.ok.sched.embryo_unique p q s.current hq (hl p hp)⟩

/-- Sections that publish nothing are put in front. -/
theorem Running.push (h : s.Running) {l : List Section} (hl : Tidy (l ++ s.code s.current))
    (hpub : ∀ i ∈ l, i.embryo? = none) : (s.push l).Running :=
  h.setCode hl (h.embryo_mono fun p hp ↦ by rwa [embryo?_append hpub] at hp)

/-- The process on the processor begins its next section. -/
theorem RunOk.pop (h : s.RunOk) {i : Section} {rest : List Section}
    (hcode : s.code s.current = i :: rest) (hi : i.Plain) (hne : i ≠ .schedule) :
    (s.setCode s.current rest).Running ∧ (¬i.Inner → rest = []) := by
  have hshape := h.sched.shape s.current
  rw [hcode] at hshape
  obtain ⟨hrun, hzero, htidy⟩ := hshape.of_plain rfl hi hne
  have hidle : s.current ≠ s.idleproc := by
    intro hc
    have hcode' := h.sched.idle_code
    rw [← hc, hcode] at hcode'
    rcases hcode' with hnil | hsched
    · cases hnil
    · exact hne (List.cons.inj hsched).1
  have hold : ¬AtTimer (s.code s.current) := by
    rw [hcode]
    exact htidy.not_atTimer
  refine ⟨⟨h.setCode hrun hzero hold htidy.tail (fun hc ↦ absurd hc hidle) fun p hp ↦ ?_, hrun,
    hzero, ?_, hidle⟩, htidy.eq_nil⟩
  · have hcur : embryo? (s.code s.current) = some p := by
      rw [hcode]
      exact embryo?_of_tail hp
    obtain ⟨hlive, hun⟩ := h.sched.embryo p s.current hcur
    exact ⟨hlive, hun, fun q hq ↦ h.sched.embryo_unique p q s.current hq hcur⟩
  · rw [show (s.setCode s.current rest).current = s.current from rfl, setCode_self]
    exact htidy.tail

/-! ## Semaphores -/

/-- Only the value of a semaphore changes. -/
theorem RunOk.setSem (h : s.RunOk) {k : ℕ} {sem : Sem ℕ} (hq : sem.queue = (s.sems k).queue) :
    (s.setSem k sem).RunOk where
  sched := by
    have hs := h.sched
    exact ⟨hs.current_live, hs.idle_live, hs.idle_runnable, hs.idle_code, hs.shape, hs.unused,
      hs.parent, hs.queue, hs.timers, hs.timer, hs.embryo, hs.embryo_unique⟩
  sems := by
    have hqueues : (fun x ↦ ((s.setSem k sem).sems x).queue) = fun x ↦ (s.sems x).queue := by
      funext x
      change (Function.update s.sems k sem x).queue = _
      rcases eq_or_ne x k with rfl | hx
      · rw [Function.update_self, hq]
      · rw [Function.update_of_ne hx]
    have hplace : (s.setSem k sem).place = s.place := rfl
    rw [SemsOk, hqueues, hplace]
    exact h.sems

/-- The queues after one of them was replaced. -/
theorem queue_setSem (s : Kernel) (k : ℕ) (sem : Sem ℕ) :
    (fun x ↦ ((s.setSem k sem).sems x).queue)
      = Function.update (fun x ↦ (s.sems x).queue) k sem.queue := by
  funext x
  change (Function.update s.sems k sem x).queue = _
  rcases eq_or_ne x k with rfl | hx
  · rw [Function.update_self, Function.update_self]
  · rw [Function.update_of_ne hx, Function.update_of_ne hx]

/-- A sleeping process does not look at its wait entry. -/
theorem SchedOk.setFlags (h : s.SchedOk) {p : ℕ} (hp : (s.proc p).state = .sleeping) (k : ℕ)
    (sem : Sem ℕ) (f : BitVec 32) : ((s.setSem k sem).setFlags p f).SchedOk := by
  refine ⟨h.current_live, h.idle_live, h.idle_runnable, h.idle_code, fun q ↦ ?_, h.unused, h.parent,
    h.queue, h.timers, h.timer, h.embryo, h.embryo_unique⟩
  change Shape (q = s.current) (s.proc q).state (s.proc q).waitState
    (Function.update s.wakeupFlags p f q) (s.code q)
  rcases eq_or_ne q p with rfl | hq
  · rw [Function.update_self]
    have hshape := h.shape q
    rw [hp] at hshape ⊢
    exact hshape.setFlags f
  · rw [Function.update_of_ne hq]
    exact h.shape q

/-- A process in the queue of a semaphore sleeps, with the wait flag for semaphores. -/
theorem RunOk.of_queue (h : s.RunOk) {k p : ℕ} (hp : p ∈ (s.sems k).queue) :
    (s.proc p).state = .sleeping ∧ (s.proc p).waitState = wtKsem ∧ p ∈ s.live ∧
      semOf (s.code p) = some k := by
  have hplace : s.place p = some k := (h.sems.mem_iff k p).mp hp
  have hst : (s.proc p).state = .sleeping := by
    by_contra hne
    rw [place_of_ne hne] at hplace
    cases hplace
  rw [place, if_pos hst] at hplace
  have hshape := h.sched.shape p
  rw [hst] at hshape
  refine ⟨hst, hshape.wtKsem_of_semOf hplace, ?_, hplace⟩
  by_contra hdead
  rcases h.sched.unused p hdead with hp | hp <;> rw [hst] at hp <;> cases hp

/-- `up` without a waiting process. -/
theorem run_up_of_nil {k : ℕ} (hq : (s.sems k).queue = []) : (up k).run s
    = .ok [.up k] (s.setSem k { s.sems k with value := incInt (s.sems k).value }) := by
  rw [up, get_bind_run, Sem.up_of_nil hq]
  rfl

/-- `up` with a waiting process: the first one is woken. -/
theorem RunOk.run_up_of_cons (h : s.RunOk) {k p : ℕ} {queue : List ℕ}
    (hq : (s.sems k).queue = p :: queue) : (up k).run s = .ok [.hand k p, .up k]
      (((s.setSem k { s.sems k with queue := queue }).setFlags p wtKsem).wakeup p) := by
  obtain ⟨hst, hw, -, -⟩ := h.of_queue (hq ▸ List.mem_cons_self : p ∈ (s.sems k).queue)
  set u := (s.setSem k { s.sems k with queue := queue }).setFlags p wtKsem with hu
  have hwake : (Ucore.wakeupProc p).run u = .ok () (u.wakeup p) := by
    have hst' : (u.proc p).state = .sleeping := hst
    have hz : (u.proc p).state ≠ .zombie := by
      rw [hst']
      exact ProcState.noConfusion
    have hr : (u.proc p).state ≠ .runnable := by
      rw [hst']
      exact ProcState.noConfusion
    rw [run_wakeupProc hz, if_pos hr]
  rw [up, get_bind_run, Sem.up_of_cons hq]
  change (assert ((s.proc p).waitState = wtKsem) >>= _ : KProg _).run s = _
  rw [assert_bind_run hw, modify_bind_run, bind_of_ok hwake, run_pure]

theorem RunOk.up_of_cons (h : s.RunOk) {k p : ℕ} {queue : List ℕ}
    (hq : (s.sems k).queue = p :: queue) :
    (((s.setSem k { s.sems k with queue := queue }).setFlags p wtKsem).wakeup p).RunOk := by
  obtain ⟨hst, hw, hlive, hsem⟩ := h.of_queue (hq ▸ List.mem_cons_self : p ∈ (s.sems k).queue)
  have hs := h.sched.setFlags hst k { s.sems k with queue := queue } wtKsem
  set u := (s.setSem k { s.sems k with queue := queue }).setFlags p wtKsem with hu
  have hflags : u.wakeupFlags p = wtKsem := Function.update_self ..
  have hshape := hs.shape p
  have hst' : (u.proc p).state = .sleeping := hst
  have hw' : (u.proc p).waitState = wtKsem := hw
  rw [hst', hw', hflags] at hshape
  refine ⟨hs.wakeup hlive ?_ ?_ fun q hq ↦ ?_, ?_⟩
  · rw [hst']
    exact ProcState.noConfusion
  · rw [hflags]
    exact hshape.wake (by decide) fun _ _ ↦ rfl
  · have hun := (hs.embryo p q hq).2
    rw [hst'] at hun
    cases hun
  · have hsems : (u.wakeup p).sems = u.sems := sems_wakeup u p
    have hplace : u.place = s.place := rfl
    rw [SemsOk, place_wakeup, hsems, hplace]
    change WaitQueue.Agree (fun x ↦ ((s.setSem k _).sems x).queue) _
    rw [queue_setSem]
    exact h.sems.pop hq

/-- `down` without a unit: the process goes to sleep. -/
theorem run_down_of_not_pos {k : ℕ} (hv : ¬0 < (s.sems k).value) : (down k).run s
    = .ok [.enqueue k s.current]
      ((((s.setSem k { s.sems k with queue := (s.sems k).queue ++ [s.current] }).setFlags s.current
        wtInterrupted).setProc s.current fun q ↦
          { q with state := .sleeping, waitState := wtKsem }).push [.schedule, .downRet k]) := by
  rw [down, get_bind_run, Sem.down_of_not_pos hv]
  rfl

theorem run_down_of_pos {k : ℕ} (hv : 0 < (s.sems k).value) : (down k).run s
    = .ok [.take k s.current] (s.setSem k { s.sems k with value := (s.sems k).value - 1 }) := by
  rw [down, get_bind_run, Sem.down_of_pos hv]
  rfl

theorem Running.down_of_not_pos (h : s.Running) (k : ℕ) :
    ((((s.setSem k { s.sems k with queue := (s.sems k).queue ++ [s.current] }).setFlags s.current
        wtInterrupted).setProc s.current fun q ↦
          { q with state := .sleeping, waitState := wtKsem }).push
          [.schedule, .downRet k]).RunOk := by
  have hembryo : embryo? ([.schedule, .downRet k] ++ s.code s.current) =
      embryo? (s.code s.current) :=
    embryo?_append (by simp [Section.embryo?])
  have hun : (s.proc s.current).state ≠ .uninit := by
    rw [h.runnable]
    exact ProcState.noConfusion
  refine ⟨h.ok.sched.update (f := fun q ↦ { q with state := .sleeping, waitState := wtKsem }) hun
    (fun hc ↦ absurd hc h.not_idle) id (.going trivial rfl ⟨h.tidy, fun _ ↦ Section.noConfusion⟩)
    (fun p hp ↦
      Function.update_of_ne hp ..) h.ok.sched.timers
      (h.ok.sched.timer_setCode h.tidy.not_atTimer)
      (h.embryo_mono fun p hp ↦ hembryo.symm.trans hp), ?_⟩
  have hplace : s.place s.current = none := by
    refine place_of_ne ?_
    rw [h.runnable]
    exact ProcState.noConfusion
  have hagree := h.ok.sems.push hplace k
  have hqueues := queue_setSem s k { s.sems k with queue := (s.sems k).queue ++ [s.current] }
  rw [← hqueues] at hagree
  have hnew := place_update s (f := fun q ↦ { q with state := .sleeping, waitState := wtKsem })
    (l := [.schedule, .downRet k] ++ s.code s.current)
    (w := Function.update s.wakeupFlags s.current wtInterrupted) (c := s.timers)
    (x := (s.setSem k { s.sems k with queue := (s.sems k).queue ++ [s.current] }).sems) rfl
  have hsem : semOf ([.schedule, .downRet k] ++ s.code s.current) = some k := rfl
  rw [hsem] at hnew
  rw [← hnew] at hagree
  exact hagree

/-- The process on the processor goes on behind a call of `schedule` for which it was woken. -/
theorem RunOk.popWait (h : s.RunOk) {r : Section} {rest : List Section} {w : BitVec 32}
    (hcode : s.code s.current = r :: rest) (hr : r.wait? = some w) :
    (s.proc s.current).state = .runnable ∧ (s.proc s.current).waitState = 0 ∧
      (∀ k, r = .downRet k → s.wakeupFlags s.current = wtKsem) ∧ r.Before rest ∧
      s.current ≠ s.idleproc ∧ ∀ p, embryo? rest = some p → p ∈ s.live ∧
        (s.proc p).state = .uninit ∧ ∀ q, embryo? (s.code q) = some p → q = s.current := by
  have hshape := h.sched.shape s.current
  rw [hcode] at hshape
  obtain ⟨hrun, hzero, hf, hl⟩ := hshape.of_wait rfl hr
  refine ⟨hrun, hzero, hf, hl, fun hc ↦ ?_, fun p hp ↦ ?_⟩
  · have hcode' := h.sched.idle_code
    rw [← hc, hcode] at hcode'
    rcases hcode' with hnil | hsched
    · cases hnil
    · rw [(List.cons.inj hsched).1] at hr
      cases hr
  · have hcur : embryo? (s.code s.current) = some p := by
      rw [hcode]
      exact embryo?_of_tail hp
    obtain ⟨hlive, hun⟩ := h.sched.embryo p s.current hcur
    exact ⟨hlive, hun, fun q hq ↦ h.sched.embryo_unique p q s.current hq hcur⟩

theorem RunOk.popWait_running (h : s.RunOk) {r : Section} {rest : List Section} {w : BitVec 32}
    (hcode : s.code s.current = r :: rest) (hr : r.wait? = some w) (hne : r ≠ .sleepRet) :
    (s.setCode s.current rest).Running := by
  obtain ⟨hrun, hzero, -, hl, hidle, hemb⟩ := h.popWait hcode hr
  have hold : ¬AtTimer (s.code s.current) := by
    rw [hcode]
    cases r <;> first | exact id | exact absurd rfl hne | cases hr
  refine ⟨h.setCode hrun hzero hold hl.tidy (fun hc ↦ absurd hc hidle) hemb, hrun, hzero, ?_, hidle⟩
  rw [show (s.setCode s.current rest).current = s.current from rfl, setCode_self]
  exact hl.tidy

theorem Running.downRet (h : s.Running) {k : ℕ} (hf : s.wakeupFlags s.current = wtKsem) :
    ∃ t, (Ucore.downRet k).run s = .ok [] t ∧ t.RunOk ∧
      t = s.setSem k { s.sems k with queue := (s.sems k).queue.erase s.current } := by
  have hplace : s.place s.current = none := by
    refine place_of_ne ?_
    rw [h.runnable]
    exact ProcState.noConfusion
  refine ⟨_, ?_, h.ok.setSem ?_, rfl⟩
  · rw [Ucore.downRet, modify_bind_run, get_bind_run]
    exact assert_bind_run hf _ _
  · exact List.erase_of_not_mem (h.ok.sems.notMem hplace k)

/-! ## Timers -/

/-- The list of timers, by the owners. -/
theorem SchedOk.timer_owner (h : s.SchedOk) :
    ∀ o ∈ s.timers.map Timer.owner, o.2 = some o.1 ∧ AtTimer (s.code o.1) := by
  intro o ho
  obtain ⟨t, ht, rfl⟩ := List.mem_map.mp ho
  exact h.timer t ht

theorem Running.doSleep (h : s.Running) (time : BitVec 32) :
    ∃ t, (Ucore.doSleep time).run s = .ok [] t ∧ t.RunOk := by
  rw [Ucore.doSleep]
  by_cases htime : time = 0
  · rw [if_pos htime]
    exact ⟨s, rfl, h.ok⟩
  rw [if_neg htime]
  obtain ⟨past, hpast⟩ := h.ok.sched.timers
  have hpos : 0 < time.toNat := by
    rw [Nat.pos_iff_ne_zero]
    intro hz
    exact htime (BitVec.eq_of_toNat_eq hz)
  -- the process runs, so it is at no timer yet
  have hid : ∀ t ∈ s.timers, t.id ≠ s.current := by
    rintro t ht hid
    exact h.tidy.not_atTimer (hid ▸ (h.ok.sched.timer t ht).2)
  obtain ⟨hrun, hok⟩ := hpast.addTimer (p := s.current) hpos time.isLt
    (hpast.ne_of_countdowns hid)
  set timers := addTimerLoop ⟨s.current, time.toNat, some s.current⟩ s.timers with htimers
  have hembryo : embryo? ([.schedule, .sleepRet] ++ s.code s.current) =
      embryo? (s.code s.current) :=
    embryo?_append (by simp [Section.embryo?])
  have hun : (s.proc s.current).state ≠ .uninit := by
    rw [h.runnable]
    exact ProcState.noConfusion
  set f : Proc → Proc := fun q ↦ { q with state := .sleeping, waitState := wtTimer } with hf
  set l := [Section.schedule, .sleepRet] ++ s.code s.current with hl
  refine ⟨{ (s.setProc s.current f).setCode s.current l with timers := timers }, ?_, ?_, ?_⟩
  · have hzoom : (onTimers (Ucore.addTimer ⟨s.current, time.toNat, some s.current⟩)).run
        (s.setProc s.current f) = .ok () { s.setProc s.current f with timers := timers } :=
      zoom_of_ok hrun
    rw [get_bind_run, modify_bind_run, bind_of_ok hzoom, modify_bind_run]
    rfl
  · refine h.ok.sched.update (x := s.sems) hun (fun hc ↦ absurd hc h.not_idle) id
      (.going trivial rfl ⟨h.tidy, fun _ ↦ Section.noConfusion⟩) (fun _ _ ↦ rfl) ⟨_, hok⟩
      (fun t ht ↦ ?_)
      (h.embryo_mono fun p hp ↦ hembryo.symm.trans hp)
    -- the timers on the list are the new one and the old ones
    have ho := (owner_addTimerLoop _ _).mem_iff.mp (List.mem_map_of_mem (f := Timer.owner) ht)
    rcases List.mem_cons.mp ho with ho | ho
    · obtain ⟨hid', hproc⟩ := Prod.mk.inj ho
      refine ⟨hproc.trans (congrArg some hid'.symm), ?_⟩
      rw [hid', setCode_self]
      trivial
    · obtain ⟨t', ht', ho'⟩ := List.mem_map.mp ho
      obtain ⟨hid', hproc'⟩ := Prod.mk.inj ho'
      rw [← hproc', ← hid']
      exact h.ok.sched.timer_setCode h.tidy.not_atTimer t' ht'
  · have hplace : s.place s.current = none := by
      refine place_of_ne ?_
      rw [h.runnable]
      exact ProcState.noConfusion
    have hnew := place_update s (f := f) (l := l) (w := s.wakeupFlags) (c := timers)
      (x := s.sems) rfl
    have hsem : semOf l = none := rfl
    rw [hsem] at hnew
    have hagree := h.ok.sems.stay hplace
    rw [← hnew] at hagree
    exact hagree

theorem RunOk.sleepRet (h : s.RunOk) {rest : List Section}
    (hcode : s.code s.current = .sleepRet :: rest) :
    ∃ t, Ucore.sleepRet.run (s.setCode s.current rest) = .ok [] t ∧ t.RunOk := by
  obtain ⟨hrun, hzero, -, hl, hidle, hemb⟩ := h.popWait hcode rfl
  obtain ⟨past, hpast⟩ := h.sched.timers
  refine ⟨_, rfl, h.setCodeTimers (c := delTimerList s.current s.timers) hrun hzero hl.tidy
    (fun hc ↦ absurd hc hidle) ⟨_, hpast.delTimerList s.current⟩ (fun t ht ↦ ?_) hemb⟩
  have hne := hpast.ne_of_mem_del ht
  have ho := (owner_delTimerList _ _).subset (List.mem_map_of_mem (f := Timer.owner) ht)
  rw [setCode_of_ne s hne]
  exact h.sched.timer_owner _ ho

/-- Timers go off the list. -/
theorem RunOk.setTimers (h : s.RunOk) {timers : List Timer} (hok : ∃ past, TimersOk past timers)
    (hsub : ∀ o ∈ timers.map Timer.owner, o ∈ s.timers.map Timer.owner) :
    RunOk { s with timers := timers } where
  sched := by
    have hs := h.sched
    refine ⟨hs.current_live, hs.idle_live, hs.idle_runnable, hs.idle_code, hs.shape, hs.unused,
      hs.parent, hs.queue, hok, fun t ht ↦ ?_, hs.embryo, hs.embryo_unique⟩
    exact hs.timer_owner _ (hsub _ (List.mem_map_of_mem ht))
  sems := h.sems

/-- The processes of expired timers are woken; one that was killed in its sleep is awake already. -/
theorem RunOk.wakeupTimers (h : s.RunOk) {l : List Timer}
    (hlist : ∀ t ∈ l, t.proc = some t.id ∧ AtTimer (s.code t.id)) :
    ∃ t, (Ucore.wakeupTimers l).run s = .ok () t ∧ t.RunOk := by
  induction l generalizing s with
  | nil => exact ⟨s, rfl, h⟩
  | cons timer list ih =>
    obtain ⟨hproc, hat⟩ := hlist timer List.mem_cons_self
    have hshape := (h.sched.shape timer.id).of_atTimer hat
    have hwake : (s.proc timer.id).state = .runnable ∨
        (s.proc timer.id).waitState ≠ 0 ∧ (s.proc timer.id).waitState ≠ wtKsem := by
      refine hshape.imp_right fun hw ↦ ?_
      rw [hw]
      exact ⟨by decide, by decide⟩
    have hassert : (s.proc timer.id).waitState ≠ 0 →
        (s.proc timer.id).waitState &&& wtInterrupted ≠ 0 := by
      intro hw
      rcases hshape with hrun | hw'
      · have hst := (h.sched.shape timer.id).sleeping_of_ne_zero hw
        rw [hrun] at hst
        cases hst
      · rw [hw']
        decide
    obtain ⟨t, hrun, hok, ht⟩ := h.wakeupProc hwake
    have hcode : t.code = s.code := by
      rcases ht with rfl | rfl
      · rfl
      · exact code_wakeup s _
    obtain ⟨u, hrun', hok'⟩ := ih hok fun t' ht' ↦ by
      rw [hcode]
      exact hlist t' (List.mem_cons_of_mem _ ht')
    refine ⟨u, ?_, hok'⟩
    rw [Ucore.wakeupTimers, hproc]
    dsimp only
    rw [get_bind_run, assert_bind_run hassert, bind_of_ok hrun, hrun']

/-- An interrupt of the clock. -/
theorem RunOk.timerInterrupt (h : s.RunOk) :
    ∃ t, Ucore.timerInterrupt.run s = .ok () t ∧ t.RunOk := by
  obtain ⟨past, hpast⟩ := h.sched.timers
  obtain ⟨expired, list, hrun, hok, howner⟩ := hpast.runTimerList
  have hmem : ∀ o, o ∈ expired.map Timer.owner ∨ o ∈ list.map Timer.owner →
      o ∈ s.timers.map Timer.owner := by
    intro o ho
    rw [← howner, List.map_append]
    exact List.mem_append.mpr ho
  have hok₁ := h.setTimers ⟨_, hok⟩ fun o ho ↦ hmem o (.inr ho)
  obtain ⟨t, hrun', hok'⟩ := hok₁.wakeupTimers (l := expired) fun t ht ↦
    h.sched.timer_owner _ (hmem _ (.inl (List.mem_map_of_mem ht)))
  refine ⟨t.schedClassProcTick t.current, ?_, hok'.congr ?_⟩
  · have hzoom : (onTimers Ucore.runTimerList).run s = .ok expired { s with timers := list } :=
      zoom_of_ok hrun
    rw [Ucore.timerInterrupt, bind_of_ok hzoom, bind_of_ok hrun', run_modify]
  · rw [schedClassProcTick]
    split_ifs
    · exact SameSched.setProc t t.current (fun _ ↦ rfl) (fun _ ↦ rfl) fun _ ↦ id
    · exact SameSched.setProc t t.current (fun _ ↦ rfl) (fun _ ↦ rfl) fun _ ↦ id

/-! ## do_wait and do_kill -/

/-- The structure of a process that never ran, or never will again, is freed. -/
theorem RunOk.kfreeProc (h : s.RunOk) {p : ℕ}
    (hp : (s.proc p).state = .uninit ∨ (s.proc p).state = .zombie) (hcur : p ≠ s.current)
    (hemb : ∀ q, embryo? (s.code q) ≠ some p) : (s.kfreeProc p).RunOk where
  sched := by
    have hs := h.sched
    have hmem : ∀ q, q ∈ s.live.erase p ↔ q ≠ p ∧ q ∈ s.live := fun q ↦ Finset.mem_erase
    have hrun : (s.proc p).state ≠ .runnable := by
      rcases hp with hp | hp <;> rw [hp] <;> exact ProcState.noConfusion
    have hidle : s.idleproc ≠ p := by
      rintro rfl
      exact hrun hs.idle_runnable
    refine ⟨(hmem _).mpr ⟨hcur.symm, hs.current_live⟩, (hmem _).mpr ⟨hidle, hs.idle_live⟩,
      hs.idle_runnable, hs.idle_code, hs.shape, fun q hq ↦ ?_, fun q hq hne ↦ ?_,
      hs.queue.congr fun q ↦ ?_, hs.timers, hs.timer, fun r q hq ↦ ?_, hs.embryo_unique⟩
    · rcases eq_or_ne q p with rfl | hqp
      · exact hp
      · exact hs.unused q fun hlive ↦ hq ((hmem q).mpr ⟨hqp, hlive⟩)
    · exact hs.parent q ((hmem q).mp hq).2 hne
    · change s.Ready q ↔ q ∈ s.live.erase p ∧ (s.proc q).state = .runnable ∧ _
      constructor
      · intro hq
        refine ⟨(hmem q).mpr ⟨?_, hq.1⟩, hq.2⟩
        rintro rfl
        exact hrun hq.2.1
      · intro hq
        exact ⟨((hmem q).mp hq.1).2, hq.2⟩
    · obtain ⟨hlive, hun⟩ := hs.embryo r q hq
      refine ⟨(hmem r).mpr ⟨?_, hlive⟩, hun⟩
      rintro rfl
      exact hemb q hq
  sems := h.sems

theorem firstZombie_zombie {fuel : ℕ} {c : Option ℕ} {z : ℕ} (h : s.firstZombie fuel c = some z) :
    (s.proc z).state = .zombie := by
  induction fuel generalizing c with
  | zero => cases h
  | succ fuel ih =>
    cases c with
    | none => cases h
    | some c =>
      rw [firstZombie] at h
      by_cases hc : (s.proc c).state = .zombie
      · rw [if_pos hc] at h
        exact Option.some.inj h ▸ hc
      · rw [if_neg hc] at h
        exact ih h

theorem waitTarget_zombie {pid c : ℕ} (h : s.waitTarget pid = .found c) :
    (s.proc c).state = .zombie := by
  rw [waitTarget] at h
  by_cases hpid : pid ≠ 0
  · rw [if_pos hpid] at h
    cases hfind : s.findProc pid with
    | none =>
      rw [hfind] at h
      cases h
    | some q =>
      rw [hfind] at h
      dsimp only at h
      split_ifs at h with hpar hz
      exact WaitScan.found.inj h ▸ hz
  · rw [if_neg hpid] at h
    cases hfirst : s.firstZombie s.live.card (s.proc s.current).cptr with
    | none =>
      rw [hfirst] at h
      dsimp only at h
      split_ifs at h
    | some q =>
      rw [hfirst] at h
      exact WaitScan.found.inj h ▸ firstZombie_zombie hfirst

/-- What a section has to keep. -/
def Keeps (m : KProg (List Event)) (s : Kernel) : Prop :=
  (m.run s).Sat (fun _ t ↦ t.RunOk) fun _ t ↦ t.RunOk

theorem Running.waitFound (h : s.Running) {c : ℕ} (hc : (s.proc c).state = .zombie) :
    Keeps (Ucore.waitFound c) s := by
  rw [Keeps, Ucore.waitFound, get_bind_run]
  refine sat_assert_bind fun _ ↦ ?_
  rw [modify_bind_run, modify_bind_run, run_pure]
  have hsame := ((SameSched.unhashProc s c).trans (SameSched.removeLinks _ c)).trans
    (SameSched.putKstack _ c)
  have hne : c ≠ s.current := by
    rintro rfl
    rw [h.runnable] at hc
    cases hc
  refine (h.ok.congr hsame).kfreeProc (.inr ?_) ?_ fun q hq ↦ ?_
  · rw [hsame.state]
    exact hc
  · rw [hsame.current]
    exact hne
  · rw [hsame.code] at hq
    have hun := (h.ok.sched.embryo c q hq).2
    rw [hc] at hun
    cases hun

/-- The current process stops being runnable without joining the queue of a semaphore. -/
theorem Running.stop (h : s.Running) {f : Proc → Proc} {l : List Section}
    (hsem : semOf l = none ∨ (f (s.proc s.current)).state ≠ .sleeping)
    (hpar : (f (s.proc s.current)).parent = (s.proc s.current).parent)
    (hshape : Shape True (f (s.proc s.current)).state (f (s.proc s.current)).waitState
      (s.wakeupFlags s.current) l)
    (hemb : ∀ p, embryo? l = some p → embryo? (s.code s.current) = some p) :
    ((s.setProc s.current f).setCode s.current l).RunOk where
  sched := by
    have hun : (s.proc s.current).state ≠ .uninit := by
      rw [h.runnable]
      exact ProcState.noConfusion
    exact h.ok.sched.update (x := s.sems) hun (fun hc ↦ absurd hc h.not_idle)
      (fun hp ↦ hpar.symm ▸ hp) hshape (fun _ _ ↦ rfl) h.ok.sched.timers
      (h.ok.sched.timer_setCode h.tidy.not_atTimer) (h.embryo_mono hemb)
  sems := by
    have hold : s.place s.current = none := by
      refine place_of_ne ?_
      rw [h.runnable]
      exact ProcState.noConfusion
    have hplace : ((s.setProc s.current f).setCode s.current l).place = s.place := by
      funext p
      change (if ((s.setProc s.current f).proc p).state = .sleeping then
        semOf ((s.setCode s.current l).code p) else none) = _
      rcases eq_or_ne p s.current with rfl | hp
      · rw [setProc_self, setCode_self, hold]
        rcases hsem with hsem | hsem
        · rw [hsem, ite_self]
        · rw [if_neg hsem]
      · rw [setProc_of_ne s hp, setCode_of_ne s hp]
        rfl
    rw [SemsOk, hplace]
    exact h.ok.sems

theorem Running.waitScan (h : s.Running) (hnil : s.code s.current = []) (pid : ℕ) :
    Keeps (Ucore.waitScan pid) s := by
  rw [Keeps, Ucore.waitScan, get_bind_run]
  cases htarget : s.waitTarget pid with
  | none => exact h.ok
  | found c => exact h.waitFound (waitTarget_zombie htarget)
  | waiting =>
    dsimp only
    rw [modify_bind_run, run_pure]
    refine h.stop (f := fun q ↦ { q with state := .sleeping }) (.inl rfl) rfl ?_
      fun p hp ↦ ?_
    · have hshape : Shape True .sleeping 0 (s.wakeupFlags s.current) [.waitSleep pid] :=
        .drowsy trivial
      rw [← h.zero, ← hnil] at hshape
      exact hshape
    · change embryo? ([.waitSleep pid] ++ s.code s.current) = some p at hp
      rw [hnil] at hp
      cases hp

/-- The second assignment of `do_wait` before it sleeps. -/
theorem RunOk.waitSleep (h : s.RunOk) {pid : ℕ} {rest : List Section}
    (hcode : s.code s.current = .waitSleep pid :: rest) :
    Keeps (Ucore.waitSleep pid) (s.setCode s.current rest) := by
  have hs := h.sched
  have hshape := hs.shape s.current
  rw [hcode] at hshape
  -- a process that is about to write its wait state is asleep already, at the end of its code
  have hst : (s.proc s.current).state = .sleeping ∧ rest = [] := by
    generalize hcur : (s.proc s.current).state = st at hshape
    generalize (s.proc s.current).waitState = w at hshape
    cases hshape with
    | plain hl =>
      cases hl with
      | last hi => exact absurd hi id
      | cons hi _ => exact absurd hi id
    | woken hr _ _ => cases hr
    | drowsy _ => exact ⟨rfl, rfl⟩
    | asleep hnot _ _ => exact absurd rfl hnot
  have hemb : ∀ p, embryo? ([.schedule, .waitRet pid] ++ rest) = some p →
      embryo? (s.code s.current) = some p := by
    intro p hp
    rw [embryo?_append (by simp [Section.embryo?])] at hp
    rw [hcode]
    exact embryo?_of_tail hp
  have hun : (s.proc s.current).state ≠ .uninit := by
    rw [hst.1]
    exact ProcState.noConfusion
  have hidle : s.current ≠ s.idleproc := by
    intro hc
    have hrun := hs.idle_runnable
    rw [← hc, hst.1] at hrun
    cases hrun
  have hold : ¬AtTimer (s.code s.current) := by
    rw [hcode]
    exact id
  have hnew := hs.update (f := fun q ↦ { q with waitState := wtChild })
    (l := [.schedule, .waitRet pid] ++ rest) (w := s.wakeupFlags) (x := s.sems) hun
    (fun hc ↦ absurd hc hidle) id (by
      dsimp only
      rw [hst.1]
      rw [hst.2]
      exact .going trivial rfl ⟨.nil, fun _ _ ↦ rfl⟩) (fun _ _ ↦ rfl) hs.timers
        (hs.timer_setCode hold) fun p hp ↦ by
      obtain ⟨hlive, hst'⟩ := hs.embryo p s.current (hemb p hp)
      exact ⟨hlive, hst', fun q hq ↦ hs.embryo_unique p q s.current hq (hemb p hp)⟩
  have heq : (((s.setCode s.current rest).setProc s.current fun q ↦
      { q with waitState := wtChild }).push [.schedule, .waitRet pid]) =
      (s.setProc s.current fun q ↦ { q with waitState := wtChild }).setCode s.current
        ([.schedule, .waitRet pid] ++ rest) := by
    change Kernel.setCode _ s.current ([.schedule, .waitRet pid] ++
      (s.setCode s.current rest).code s.current) = _
    rw [setCode_self]
    simp only [Kernel.setCode, Kernel.setProc, Function.update_idem]
  rw [Keeps, Ucore.waitSleep, modify_bind_run, run_pure]
  change Kernel.RunOk (((s.setCode s.current rest).setProc s.current fun q ↦
      { q with waitState := wtChild }).push [.schedule, .waitRet pid])
  rw [heq]
  refine ⟨hnew, ?_⟩
  have hplace := place_update s (f := fun q ↦ { q with waitState := wtChild })
    (l := [.schedule, .waitRet pid] ++ rest) (w := s.wakeupFlags) (c := s.timers)
    (x := s.sems) hst.1
  have hnone : s.place s.current = none := by
    rw [place, if_pos hst.1, hcode]
    rfl
  have hsem : semOf ([.schedule, .waitRet pid] ++ rest) = none := rfl
  rw [hsem] at hplace
  have hagree := h.sems.stay hnone
  rw [← hplace] at hagree
  exact hagree

theorem Running.waitRet (h : s.Running) (hnil : s.code s.current = []) (pid : ℕ) :
    Keeps (Ucore.waitRet pid) s := by
  rw [Keeps, Ucore.waitRet, get_bind_run, modify_bind_run, run_pure]
  refine (h.push ?_ ?_).ok
  · rw [hnil, List.append_nil]
    split_ifs <;> exact .last trivial
  · split_ifs <;> simp [doExit, Section.embryo?]

theorem RunOk.wakeupIf (h : s.RunOk) {c : Prop} [Decidable c] {p : ℕ}
    (hc : c → (s.proc p).waitState ≠ 0 ∧ (s.proc p).waitState ≠ wtKsem) :
    ∃ t, (Ucore.wakeupIf c p).run s = .ok () t ∧ t.RunOk ∧ (t = s ∨ t = s.wakeup p) := by
  rw [Ucore.wakeupIf]
  by_cases hcond : c
  · rw [if_pos hcond]
    exact h.wakeupProc (.inr (hc hcond))
  · rw [if_neg hcond]
    exact ⟨s, rfl, h, .inl rfl⟩

/-- The wait flags that a signal interrupts are not those of semaphores. -/
theorem ne_of_interrupted {w : BitVec 32} (h : w &&& wtInterrupted ≠ 0) : w ≠ 0 ∧ w ≠ wtKsem := by
  constructor
  · rintro rfl
    exact h (by decide)
  · rintro rfl
    exact h (by decide)

theorem RunOk.doKill (h : s.RunOk) (pid : ℕ) : (∃ e, (Ucore.doKill pid).run s = .error e s) ∨
    ∃ t, (Ucore.doKill pid).run s = .ok [] t ∧ t.RunOk := by
  rw [Ucore.doKill, get_bind_run]
  cases s.findProc pid with
  | none => exact .inl ⟨_, rfl⟩
  | some p =>
    dsimp only
    by_cases hex : (s.proc p).exiting = true
    · rw [if_pos hex]
      exact .inl ⟨_, rfl⟩
    · rw [if_neg hex, modify_bind_run]
      have hsame := SameSched.setLink s p (fun q ↦ { q with exiting := true }) (fun _ ↦ rfl)
        (fun _ ↦ rfl) fun _ ↦ rfl
      obtain ⟨t, hrun, hok, -⟩ := (h.congr hsame).wakeupIf
        (c := (s.proc p).waitState &&& wtInterrupted ≠ 0) (p := p) fun hw ↦ by
          rw [hsame.waitState]
          exact ne_of_interrupted hw
      exact .inr ⟨t, (bind_of_ok hrun _).trans rfl, hok⟩

end Kernel

end Ucore
