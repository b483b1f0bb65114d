import Ucore.Proc.ForkRuns

/-!
# The run queue in do_execve and do_exit, and in every run

The sections that are left: those that close files, those of `do_execve`, and `do_exit`. Most of
them touch nothing that the scheduler looks at, and the invariant goes through by `SameSched`. What
is new is a process that gives the processor away for good: once it is a zombie the only section it
still runs is the end of `do_exit`, which hands its children over and wakes processes that sleep in
`do_wait`.

With them every section keeps `Kernel.RunOk`. The calls that `proc_init` makes establish it, so it
holds in every state that a run from boot on reaches, and there the run queue holds exactly the
processes that are ready (`runQueue_ready`).
-/

namespace Ucore

open Prog

namespace Kernel

variable {s t : Kernel} {p : ℕ}

/-! ## Short sections -/

theorem Running.tryDown (h : s.Running) (k : ℕ) : Keeps (Ucore.tryDown k) s := by
  rw [Keeps, Ucore.tryDown, get_bind_run, Sem.tryDown]
  by_cases hv : 0 < (s.sems k).value
  · rw [if_pos hv]
    exact h.ok.setSem rfl
  · rw [if_neg hv]
    exact h.ok

theorem Running.up (h : s.Running) (k : ℕ) : Keeps (Ucore.up k) s := by
  rw [Keeps]
  cases hq : (s.sems k).queue with
  | nil =>
    rw [run_up_of_nil hq]
    exact h.ok.setSem rfl
  | cons p queue =>
    rw [h.ok.run_up_of_cons hq]
    exact h.ok.up_of_cons hq

theorem Running.down (h : s.Running) (k : ℕ) : Keeps (Ucore.down k) s := by
  rw [Keeps]
  by_cases hv : 0 < (s.sems k).value
  · rw [run_down_of_pos hv]
    exact h.ok.setSem rfl
  · rw [run_down_of_not_pos hv]
    exact h.down_of_not_pos k

/-- A change that the scheduler does not see, followed by a push of sections that publish
nothing. -/
theorem Running.push_congr (h : s.Running) (hsame : SameSched s t) {l : List Section}
    (hl : Tidy (l ++ s.code s.current)) (hpub : ∀ i ∈ l, i.embryo? = none) : (t.push l).RunOk := by
  refine ((h.congr hsame).push ?_ hpub).ok
  rw [hsame.code, hsame.current]
  exact hl

/-! ## Closing files -/

/-- Sections that other sections can follow are put in front. -/
theorem Running.push_inner (h : s.Running) (hsame : SameSched s t) {l : List Section}
    (hl : ∀ i ∈ l, i.Inner) : (t.push l).RunOk :=
  h.push_congr hsame (.append hl h.tidy) fun i hi ↦ (hl i hi).embryo?_eq

theorem Running.closeallFd (h : s.Running) (f fd : ℕ) : Keeps (Ucore.closeallFd f fd) s := by
  rw [Keeps, Ucore.closeallFd, get_bind_run, modify_bind_run, run_pure]
  refine h.push_inner (.refl s) ?_
  split_ifs
  · simp [Section.Inner]
  · simp

theorem Running.destroyFd (h : s.Running) (f fd : ℕ) : Keeps (Ucore.destroyFd f fd) s := by
  rw [Keeps, Ucore.destroyFd, get_bind_run, modify_bind_run, run_pure]
  refine h.push_inner (.refl s) ?_
  split_ifs <;> simp [Section.Inner]

/-- A routine that the scheduler does not see, and what follows it. -/
theorem Running.bind_moves {α : Type} (h : s.Running) {m : KProg α} (hm : Moves SameSched m)
    {f : α → KProg (List Event)} (hf : ∀ a t, SameSched s t → t.Running → Keeps (f a) t) :
    Keeps (m >>= f) s := by
  refine sat_bind (R := fun _ t ↦ SameSched s t) ?_ fun a t ht ↦ hf a t ht (h.congr ht)
  exact (hm s).imp (fun _ _ ht ↦ ht) fun _ _ ht ↦ h.ok.congr ht

theorem Running.moves (h : s.Running) {m : KProg (List Event)} (hm : Moves SameSched m) :
    Keeps m s := (hm s).imp (fun _ _ ht ↦ h.ok.congr ht) fun _ _ ht ↦ h.ok.congr ht

theorem Running.fopenCountDec (h : s.Running) (f fd : ℕ) : Keeps (Ucore.fopenCountDec f fd) s := by
  rw [Ucore.fopenCountDec]
  refine h.bind_moves (.modify fun s ↦ SameSched.setFile s f fd _) fun _ t _ ht ↦ ?_
  rw [Keeps, get_bind_run]
  split_ifs
  · refine sat_assert_bind fun _ ↦ ?_
    refine ht.push_inner (.refl t) ?_
    simp [Section.Inner]
  · exact ht.ok

theorem Running.fdArrayRelease (h : s.Running) (f fd : ℕ) :
    Keeps (Ucore.fdArrayRelease f fd) s := by
  rw [Keeps, Ucore.fdArrayRelease, get_bind_run]
  exact sat_assert_bind fun _ ↦ sat_assert_bind fun _ ↦ h.fopenCountDec f fd

theorem Running.fdArrayClose (h : s.Running) (f fd : ℕ) : Keeps (Ucore.fdArrayClose f fd) s := by
  rw [Keeps, Ucore.fdArrayClose, get_bind_run]
  refine sat_assert_bind fun _ ↦ sat_assert_bind fun _ ↦ ?_
  exact h.bind_moves (.modify fun s ↦ SameSched.setFile s f fd _) fun _ t _ ht ↦
    ht.fopenCountDec f fd

theorem Running.fileClose (h : s.Running) (fd : ℕ) : Keeps (Ucore.fileClose fd) s := by
  rw [Ucore.fileClose]
  exact h.bind_moves (SameSched.fd2file fd) fun f _ _ ht ↦ ht.fdArrayClose f fd

theorem Running.fileUse (h : s.Running) (fd : ℕ) : Keeps (Ucore.fileUse fd) s := by
  rw [Ucore.fileUse]
  refine h.bind_moves (SameSched.fd2file fd) fun f t _ ht ↦ ?_
  rw [Keeps, modify_bind_run, run_pure]
  refine ht.push_inner (SameSched.setFile t f fd _) ?_
  simp [Section.Inner]

theorem Running.putFiles (h : s.Running) : Keeps Ucore.putFiles s := by
  rw [Keeps, Ucore.putFiles, get_bind_run]
  cases (s.proc s.current).filesp with
  | none => exact h.ok
  | some f =>
    dsimp only
    rw [modify_bind_run, modify_bind_run, run_pure]
    refine h.push_inner (SameSched.setFiles s f fun files ↦ { files with count := files.count - 1 })
      ?_
    split_ifs
    · intro i hi
      rcases List.mem_append.mp hi with hi | hi
      · rcases List.mem_cons.mp hi with rfl | hi
        · trivial
        · obtain ⟨fd, -, rfl⟩ := List.mem_map.mp hi
          trivial
      · rw [List.mem_singleton.mp hi]
        trivial
    · simp

theorem Running.noneFd (h : s.Running) (f fd : ℕ) : Keeps (Section.exec (.noneFd f fd)) s := by
  rw [Keeps, Section.exec, get_bind_run]
  exact sat_assert_bind fun _ ↦ h.ok

/-! ## do_execve -/

theorem Active.execArgs (h : s.Active False) (mem : ExecMem) : Keeps (Ucore.execArgs mem) s := by
  rw [Keeps, Ucore.execArgs]
  cases mem.args with
  | error e => exact h.ok
  | ok _ =>
    dsimp only
    rw [get_bind_run]
    cases (s.proc s.current).filesp with
    | none => trivial
    | some f =>
      dsimp only
      refine sat_assert_bind fun _ ↦ ?_
      rw [modify_bind_run, run_pure]
      set l := (List.range' 2 (filesStructNentry - 2)).map (Section.closeallFd f) with hl
      have hinner : ∀ i ∈ l, i.Inner := by
        intro i hi
        obtain ⟨fd, -, rfl⟩ := List.mem_map.mp hi
        trivial
      refine h.running.push_congr (.refl s) ?_ fun i hi ↦ ?_
      · rw [h.code_nil, List.append_nil]
        exact .append hinner (.cons trivial (.last trivial))
      · rcases List.mem_append.mp hi with hi | hi
        · exact (hinner i hi).embryo?_eq
        · simp only [List.mem_cons, List.not_mem_nil, or_false] at hi
          rcases hi with rfl | rfl <;> rfl

/-- The call goes on with a section after which there is nothing else to do. -/
theorem Active.push_last (h : s.Active False) (hsame : SameSched s t) {i : Section} (hi : i.Plain)
    (hpub : i.embryo? = none) : (t.push [i]).RunOk := by
  refine h.running.push_congr hsame ?_ fun j hj ↦ ?_
  · rw [h.code_nil, List.append_nil]
    exact .last hi
  · rw [List.mem_singleton.mp hj]
    exact hpub

/-- The call waits for locks, and goes on with a section after which there is nothing else to do. -/
theorem Active.push_inner_last (h : s.Active False) (hsame : SameSched s t) {i j : Section}
    (hj : j.Inner) (hi : i.Plain) (hpub : i.embryo? = none) : (t.push [j, i]).RunOk := by
  refine h.running.push_congr hsame ?_ fun k hk ↦ ?_
  · rw [h.code_nil, List.append_nil]
    exact .cons hj (.last hi)
  · simp only [List.mem_cons, List.not_mem_nil, or_false] at hk
    rcases hk with rfl | rfl
    · exact hj.embryo?_eq
    · exact hpub

/-- A routine that the scheduler does not see, and what follows it. -/
theorem Active.bind_moves {α : Type} (h : s.Active False) {m : KProg α} (hm : Moves SameSched m)
    {f : α → KProg (List Event)} (hf : ∀ a t, t.Active False → Keeps (f a) t) :
    Keeps (m >>= f) s := by
  refine sat_bind (R := fun _ t ↦ SameSched s t) ?_ fun a t ht ↦ hf a t (h.congr ht)
  exact (hm s).imp (fun _ _ ht ↦ ht) fun _ _ ht ↦ h.ok.congr ht

theorem Active.fileOpen (h : s.Active False) (result : Except Errno ℕ) :
    Keeps (Ucore.fileOpen result) s := by
  rw [Ucore.fileOpen]
  refine h.bind_moves (SameSched.fdArrayAlloc none) fun a t ht ↦ ?_
  exact ht.push_inner_last (.refl t) trivial trivial rfl

theorem openedFd_moves (f fd : ℕ) (result : Except Errno ℕ) :
    Moves SameSched (Ucore.openedFd f fd result) := by
  cases result with
  | error e => exact .bind (SameSched.fdArrayFree f fd) fun _ ↦ .fail e
  | ok node => exact .bind (SameSched.fdArrayOpen f fd node) fun _ ↦ .pure _

theorem fileDup_moves (fd1 : ℕ) (fd2 : Option ℕ) : Moves SameSched (Ucore.fileDup fd1 fd2) := by
  rw [Ucore.fileDup]
  refine .bind (SameSched.fd2file fd1) fun _ ↦ .bind (SameSched.fdArrayAlloc fd2) fun a ↦ ?_
  exact .bind .get fun s ↦ .bind (SameSched.fdArrayOpen _ _ _) fun _ ↦ .pure _

theorem Active.execPath (h : s.Active False) (mem : ExecMem) : Keeps (Ucore.execPath mem) s := by
  rw [Ucore.execPath]
  refine h.bind_moves (Moves.attempt (SameSched.fdArrayAlloc none)) fun a t ht ↦ ?_
  cases a with
  | error e => exact ht.push_last (.refl t) trivial rfl
  | ok a => exact ht.push_inner_last (.refl t) trivial trivial rfl

theorem dropMm_moves : Moves SameSched Ucore.dropMm := fun s ↦
  (SameSched.dropMm s).imp (fun _ _ ht ↦ ht) fun _ _ hfalse ↦ absurd hfalse id

theorem Active.execOpen (h : s.Active False) (f fd : ℕ) (mem : ExecMem) :
    Keeps (Ucore.execOpen f fd mem) s := by
  rw [Ucore.execOpen]
  cases mem.opened with
  | error e =>
    exact h.bind_moves (SameSched.fdArrayFree f fd) fun _ t ht ↦ ht.push_last (.refl t) trivial rfl
  | ok node =>
    refine h.bind_moves (SameSched.fdArrayOpen f fd node) fun _ t ht ↦ ?_
    exact ht.bind_moves dropMm_moves fun _ u hu ↦ hu.push_last (.refl u) trivial rfl

theorem Active.execLoad (h : s.Active False) (fd : ℕ) (mem : ExecMem) :
    Keeps (Ucore.execLoad fd mem) s := by
  rw [Keeps, Ucore.execLoad, get_bind_run]
  refine sat_assert_bind fun _ ↦ ?_
  rw [modify_bind_run]
  have hgrow : SameSched s (s.growArena mem.mm) := SameSched.setMem s _
  cases mem.mm.addr with
  | none => exact h.push_last hgrow trivial rfl
  | some m =>
    cases mem.pgdir with
    | none => exact h.push_last hgrow trivial rfl
    | some pgdir =>
      dsimp only
      rw [modify_bind_run, run_pure]
      refine h.running.push_congr (hgrow.trans (SameSched.mmCreate _ m pgdir)) ?_ fun i hi ↦ ?_
      · rw [h.code_nil, List.append_nil]
        split_ifs
        · exact .cons trivial (.cons trivial (.last trivial))
        · exact .cons trivial (.last trivial)
      · split_ifs at hi
        · simp only [List.cons_append, List.nil_append, List.mem_cons, List.not_mem_nil,
            or_false] at hi
          rcases hi with rfl | rfl | rfl <;> rfl
        · simp only [List.cons_append, List.nil_append, List.mem_cons, List.not_mem_nil,
            or_false] at hi
          rcases hi with rfl | rfl <;> rfl

theorem Active.execInstall (h : s.Active False) (m : ℕ) (mem : ExecMem) :
    Keeps (Ucore.execInstall m mem) s := by
  rw [Keeps, Ucore.execInstall, modify_bind_run]
  have hpages := SameSched.mmPages s m mem.pages mem.lost
  cases mem.load with
  | error e => exact h.push_last (hpages.trans (SameSched.mmFree _ m)) trivial rfl
  | ok _ => exact h.ok.congr (hpages.trans (SameSched.goodMm _ _ m))

/-! ## do_exit -/

theorem Active.exitMm (h : s.Active False) (code : ℤ) : Keeps (Ucore.exitMm code) s := by
  rw [Keeps, Ucore.exitMm, get_bind_run]
  refine sat_assert_bind fun _ ↦ sat_assert_bind fun _ ↦ ?_
  refine sat_bind (R := fun _ t ↦ SameSched s t) ?_ fun _ t ht ↦ ?_
  · exact (SameSched.dropMm s).imp (fun _ _ ht ↦ ht) fun _ _ hfalse ↦ absurd hfalse id
  · rw [modify_bind_run, run_pure]
    split_ifs
    · exact h.push_inner_last ht trivial trivial rfl
    · exact h.push_last ht trivial rfl

theorem Active.exitZombie (h : s.Active False) (code : ℤ) : Keeps (Ucore.exitZombie code) s := by
  rw [Keeps, Ucore.exitZombie, get_bind_run, modify_bind_run, run_pure]
  refine h.running.stop (f := fun q ↦ { q with state := .zombie, exitCode := code })
    (.inl rfl) rfl ?_
    fun p hp ↦ ?_
  · change Shape True .zombie (s.proc s.current).waitState (s.wakeupFlags s.current)
      ([.exitTell, .schedule, .exited] ++ s.code s.current)
    rw [h.zero, h.code_nil]
    exact .telling trivial
  · change embryo? ([.exitTell, .schedule, .exited] ++ s.code s.current) = some p at hp
    rw [h.code_nil] at hp
    cases hp

/-- A zombie tells its relatives only once. -/
theorem RunOk.setCode_exitTell (h : s.RunOk) {rest : List Section}
    (hcode : s.code s.current = .exitTell :: rest) : (s.setCode s.current rest).RunOk := by
  have hs := h.sched
  have hshape := hs.shape s.current
  rw [hcode] at hshape
  have hst : (s.proc s.current).state = .zombie ∧ (s.proc s.current).waitState = 0 ∧
      rest = [.schedule, .exited] := by
    generalize (s.proc s.current).state = st at hshape ⊢
    generalize (s.proc s.current).waitState = w at hshape ⊢
    cases hshape with
    | plain hl =>
      cases hl with
      | last hi => exact absurd hi id
      | cons hi _ => exact absurd hi id
    | woken hr _ _ => cases hr
    | asleep hnot _ _ => exact absurd rfl hnot
    | telling _ => exact ⟨rfl, rfl, rfl⟩
  obtain ⟨hz, hzero, rfl⟩ := hst
  have hun : (s.proc s.current).state ≠ .uninit := by
    rw [hz]
    exact ProcState.noConfusion
  have hidle : s.current ≠ s.idleproc := by
    intro hc
    have hrun := hs.idle_runnable
    rw [← hc, hz] at hrun
    cases hrun
  have hold : ¬AtTimer (s.code s.current) := by
    rw [hcode]
    exact id
  have hid : s.setProc s.current id = s := by
    rw [setProc, id, Function.update_eq_self]
  have hnew := hs.update (f := id) (l := [.schedule, .exited]) (w := s.wakeupFlags)
    (x := s.sems) hun (fun hc ↦ absurd hc hidle) id (by
      rw [id, hz, hzero]
      exact .dying trivial) (fun _ _ ↦ rfl) hs.timers (hs.timer_setCode hold) (by
      intro p hp
      cases hp)
  rw [hid] at hnew
  refine ⟨hnew, ?_⟩
  have hplace : (s.setCode s.current [.schedule, .exited]).place = s.place := by
    funext q
    change (if (s.proc q).state = .sleeping then
      semOf ((s.setCode s.current [.schedule, .exited]).code q) else none) =
        if (s.proc q).state = .sleeping then semOf (s.code q) else none
    rcases eq_or_ne q s.current with rfl | hq
    · rw [hz]
      rfl
    · rw [setCode_of_ne s hq]
  rw [SemsOk, hplace]
  exact h.sems

theorem ne_of_wtChild {w : BitVec 32} (h : w = wtChild) : w ≠ 0 ∧ w ≠ wtKsem := by
  rw [h]
  exact ⟨by decide, by decide⟩

theorem RunOk.reparent (h : s.RunOk) (p : ℕ) :
    ∃ t, (Ucore.reparent p).run s = .ok () t ∧ t.RunOk := by
  have hcptr := SameSched.setLink s s.current (fun q ↦ { q with cptr := (s.proc p).optr })
      (fun _ ↦ rfl)
    (fun _ ↦ rfl) fun _ ↦ rfl
  have hadopt := hcptr.trans (SameSched.adopt _ p s.initproc)
  have hall :=
    hadopt.trans (SameSched.setProc _ p (f := fun q ↦ { q with parent := some s.initproc })
    (fun _ ↦ rfl) (fun _ ↦ rfl) fun _ _ ↦ Option.some_ne_none _)
  obtain ⟨t, hrun, hok, -⟩ := (h.congr hall).wakeupIf
    (c := (s.proc p).state = .zombie ∧ (s.proc s.initproc).waitState = wtChild)
    (p := s.initproc) fun hc ↦ by
      rw [hall.waitState]
      exact ne_of_wtChild hc.2
  refine ⟨t, ?_, hok⟩
  rw [Ucore.reparent, get_bind_run, modify_bind_run, modify_bind_run, hadopt.initproc]
  exact hrun

theorem RunOk.reparentLoop (h : s.RunOk) (fuel : ℕ) :
    ∃ t, (Ucore.reparentLoop fuel).run s = .ok () t ∧ t.RunOk := by
  induction fuel generalizing s with
  | zero => exact ⟨s, rfl, h⟩
  | succ fuel ih =>
    rw [Ucore.reparentLoop, get_bind_run]
    cases (s.proc s.current).cptr with
    | none => exact ⟨s, rfl, h⟩
    | some p =>
      obtain ⟨t, hrun, hok⟩ := h.reparent p
      obtain ⟨u, hrun', hok'⟩ := ih hok
      exact ⟨u, (bind_of_ok hrun _).trans hrun', hok'⟩

/-- The critical section of `do_exit`: no process that it wakes is a zombie. -/
theorem RunOk.exitTell (h : s.RunOk) (hidle : s.current ≠ s.idleproc) :
    ∃ t, Ucore.exitTell.run s = .ok [] t ∧ t.RunOk := by
  rw [Ucore.exitTell, get_bind_run]
  cases hpar : (s.proc s.current).parent with
  | none => exact absurd hpar (h.sched.parent _ h.sched.current_live hidle)
  | some q =>
    obtain ⟨t, hrun, hok, -⟩ := h.wakeupIf (c := (s.proc q).waitState = wtChild) (p := q)
      ne_of_wtChild
    obtain ⟨u, hrun', hok'⟩ := hok.reparentLoop s.live.card
    refine ⟨u, ?_, hok'⟩
    dsimp only
    rw [bind_of_ok hrun, bind_of_ok hrun', run_pure]

/-! ## Steps -/

theorem RunOk.ne_idle (h : s.RunOk) {i : Section} {rest : List Section}
    (hcode : s.code s.current = i :: rest) (hi : i ≠ .schedule) : s.current ≠ s.idleproc := by
  intro hc
  have hidle := h.sched.idle_code
  rw [← hc, hcode] at hidle
  rcases hidle with hnil | hsched
  · cases hnil
  · exact hi (List.cons.inj hsched).1

/-- A call that is one section begins. -/
theorem RunOk.pop_active (h : s.RunOk) {i : Section} {rest : List Section}
    (hcode : s.code s.current = i :: rest) (hi : i.Plain) (hne : i ≠ .schedule) (hin : ¬i.Inner) :
    (s.setCode s.current rest).Active False := by
  obtain ⟨hrunning, hnil⟩ := h.pop hcode hi hne
  refine hrunning.active ?_
  rw [show (s.setCode s.current rest).current = s.current from rfl, setCode_self, hnil hin]

/-- Every section keeps the scheduler's invariant. -/
theorem RunOk.exec (h : s.RunOk) {i : Section} {rest : List Section}
    (hcode : s.code s.current = i :: rest) (hC : ForksPublish s i) (hfresh : i.Fresh s) :
    Keeps i.exec (s.setCode s.current rest) := by
  -- behind the section the process runs, with nothing left to do unless the section is an inner one
  have hrunning := fun hi hne ↦ (h.pop hcode hi hne).1
  have hactive := fun hi hne hin ↦ h.pop_active hcode hi hne hin
  cases i with
  | schedule => exact h.schedule hcode
  | up k => exact (hrunning trivial Section.noConfusion).up k
  | down k => exact (hrunning trivial Section.noConfusion).down k
  | downRet k =>
    obtain ⟨-, -, hf, -⟩ := h.popWait hcode rfl
    obtain ⟨t, hrun, hok, -⟩ := (h.popWait_running hcode rfl Section.noConfusion).downRet (hf k rfl)
    rw [Keeps, Section.exec, hrun]
    exact hok
  | tryDown k => exact (hrunning trivial Section.noConfusion).tryDown k
  | locks => exact (hrunning trivial Section.noConfusion).ok
  | sleep time =>
    obtain ⟨t, hrun, hok⟩ := (hrunning trivial Section.noConfusion).doSleep time
    rw [Keeps, Section.exec, hrun]
    exact hok
  | sleepRet =>
    obtain ⟨t, hrun, hok⟩ := h.sleepRet hcode
    rw [Keeps, Section.exec, hrun]
    exact hok
  | waitScan pid =>
    have hact := hactive trivial Section.noConfusion id
    exact hact.running.waitScan hact.code_nil pid
  | waitSleep pid => exact h.waitSleep hcode
  | waitRet pid =>
    obtain ⟨-, -, -, hbefore, -⟩ := h.popWait hcode rfl
    obtain rfl := hbefore.nil pid rfl
    exact (h.popWait_running hcode rfl Section.noConfusion).waitRet (setCode_self s _ _) pid
  | kill pid =>
    rcases (hrunning trivial Section.noConfusion).ok.doKill pid with ⟨e, hrun⟩ | ⟨t, hrun, hok⟩
    · rw [Keeps, Section.exec, hrun]
      exact (hrunning trivial Section.noConfusion).ok
    · rw [Keeps, Section.exec, hrun]
      exact hok
  | setPriority priority =>
    exact (hrunning trivial Section.noConfusion).ok.congr (SameSched.setLink _ _
      (fun q ↦ { q with priority := if priority = 0 then 1 else priority }) (fun _ ↦ rfl)
      (fun _ ↦ rfl) fun _ ↦ rfl)
  | fork flags mem => exact (hactive trivial Section.noConfusion id).forkBegin flags mem hfresh.1
  | forkDup flags p m mem => exact (h.pop_embryonic hcode rfl).forkDup flags m mem
  | forkMm flags p m mem => exact (h.pop_embryonic hcode rfl).forkMm flags m mem
  | forkLink flags p mem => exact (h.pop_embryonic hcode rfl).forkLinkSection flags mem
  | forkWake flags p mem =>
    obtain ⟨t, hrun, hok⟩ := (h.pop_embryonic hcode rfl).forkWake flags mem
    rw [Keeps, hrun]
    exact hok
  | forkFiles flags p mem =>
    exact (hrunning trivial Section.noConfusion).ok.forkFiles flags p mem hC
  | execArgs mem => exact (hactive trivial Section.noConfusion id).execArgs mem
  | closeallFd f fd => exact (hrunning trivial Section.noConfusion).closeallFd f fd
  | execPath mem => exact (hactive trivial Section.noConfusion id).execPath mem
  | execOpen f fd mem => exact (hactive trivial Section.noConfusion id).execOpen f fd mem
  | execLoad fd mem => exact (hactive trivial Section.noConfusion id).execLoad fd mem
  | reads fd => exact (hrunning trivial Section.noConfusion).ok
  | execInstall m mem => exact (hactive trivial Section.noConfusion id).execInstall m mem
  | exit code => exact (hactive trivial Section.noConfusion id).exitMm code
  | exitFiles => exact (hrunning trivial Section.noConfusion).putFiles
  | destroyFd f fd => exact (hrunning trivial Section.noConfusion).destroyFd f fd
  | closeFd f fd => exact (hrunning trivial Section.noConfusion).fdArrayClose f fd
  | freeFd f fd => exact (hrunning trivial Section.noConfusion).ok.congr (SameSched.setFiles _ f _)
  | noneFd f fd => exact (hrunning trivial Section.noConfusion).noneFd f fd
  | freeFiles f => exact (hrunning trivial Section.noConfusion).ok.congr (SameSched.filesFree _ f)
  | exitZombie code => exact (hactive trivial Section.noConfusion id).exitZombie code
  | exitTell =>
    obtain ⟨t, hrun, hok⟩ :=
      (h.setCode_exitTell hcode).exitTell (h.ne_idle hcode Section.noConfusion)
    rw [Keeps, Section.exec, hrun]
    exact hok
  | exited => trivial
  | fileOpen result => exact (hactive trivial Section.noConfusion id).fileOpen result
  | openedFd f fd result =>
    exact (hrunning trivial Section.noConfusion).moves (openedFd_moves f fd result)
  | fileUse fd => exact (hrunning trivial Section.noConfusion).fileUse fd
  | releaseFd f fd => exact (hrunning trivial Section.noConfusion).fdArrayRelease f fd
  | fileClose fd => exact (hrunning trivial Section.noConfusion).fileClose fd
  | fileDup fd1 fd2 => exact (hrunning trivial Section.noConfusion).moves (fileDup_moves fd1 fd2)

/-- A section that others can follow is put in front of the next one. -/
theorem RunOk.insert (h : s.RunOk) {i j : Section} {rest : List Section}
    (hcode : s.code s.current = j :: rest) (hj : j.Plain) (hne : j ≠ .schedule) (hi : i.Inner) :
    (s.setCode s.current (i :: j :: rest)).RunOk := by
  have hshape := h.sched.shape s.current
  rw [hcode] at hshape
  obtain ⟨hrun, hzero, htidy⟩ := hshape.of_plain rfl hj hne
  have hold : ¬AtTimer (s.code s.current) := by
    rw [hcode]
    exact htidy.not_atTimer
  refine h.setCode hrun hzero hold (.cons hi htidy) (fun hc ↦ absurd hc (h.ne_idle hcode hne))
    fun p hp ↦ ?_
  have hemb : embryo? (s.code s.current) = some p := by
    rw [hcode, ← embryo?_cons_of_ne i (List.cons_ne_nil j rest)]
    exact hp
  obtain ⟨hlive, hun⟩ := h.sched.embryo p s.current hemb
  exact ⟨hlive, hun, fun q hq ↦ h.sched.embryo_unique p q s.current hq hemb⟩

/-- Every step keeps the scheduler's invariant. -/
theorem RunOk.step (h : s.RunOk) {events : List Event} (hstep : KStep ForksPublish s events t) :
    t.RunOk := by
  cases hstep with
  | interrupt hrun =>
    obtain ⟨u, hrun', hok⟩ := h.timerInterrupt
    rw [hrun'] at hrun
    cases hrun
    exact hok
  | call c hcode hidle =>
    have hshape := h.sched.shape s.current
    rw [hcode] at hshape
    have hst : (s.proc s.current).state = .runnable ∧ (s.proc s.current).waitState = 0 := by
      generalize (s.proc s.current).state = st at hshape ⊢
      generalize (s.proc s.current).waitState = w at hshape ⊢
      cases hshape with
      | uninit hnot => exact absurd rfl hnot
      | plain _ => exact ⟨rfl, rfl⟩
    refine h.setCode hst.1 hst.2 ?_ ?_ (fun hc ↦ ?_) fun p hp ↦ ?_
    · rw [hcode]
      exact id
    · cases c with
      | exec mem => exact .cons trivial (.last trivial)
      | _ => exact .last trivial
    · rw [hidle hc]
      exact .inr rfl
    · cases c <;> cases hp
  | lock hcode hi => exact h.insert hcode trivial Section.noConfusion (by cases hi <;> trivial)
  | read hcode => exact h.insert hcode trivial Section.noConfusion trivial
  | run hcode hC hfresh hrun =>
    have hkeep := h.exec hcode hC hfresh
    rw [Keeps, hrun] at hkeep
    exact hkeep
  | fail hcode hC hfresh hrun =>
    have hkeep := h.exec hcode hC hfresh
    rw [Keeps, hrun] at hkeep
    exact hkeep

theorem RunOk.run (h : s.RunOk) {events : List Event} (hrun : KRun ForksPublish s events t) :
    t.RunOk := by
  induction hrun with
  | refl => exact h
  | tail _ hstep ih => exact ih.step hstep

/-! ## Boot -/

/-- The process structure that `proc_init` makes for the idle process. -/
def idleProc (f : ℕ) : Proc :=
  { Proc.blank with pid := 0, state := .runnable, needResched := true, filesp := some f }

/-- The idle process is there, and `proc_init` is about to call `do_fork`. -/
def booting (value : ℕ → ℤ) (memory : Memory) (idle f page : ℕ) : Kernel :=
  let s := ((start value memory).allocProc idle).setProc idle fun q ↦
    { q with pid := 0, state := .runnable, needResched := true, filesp := some f }
  let s := (s.filesCreate f page).setFiles f fun files ↦ { files with count := files.count + 1 }
  { s with idleproc := idle, current := idle, nrProcess := s.nrProcess + 1 }

theorem booting_code (value : ℕ → ℤ) (memory : Memory) (idle f page p : ℕ) :
    (booting value memory idle f page).code p = [] := by
  change Function.update (fun _ ↦ []) idle [] p = []
  rw [Function.update_apply, ite_self]

theorem booting_proc_self (value : ℕ → ℤ) (memory : Memory) (idle f page : ℕ) :
    (booting value memory idle f page).proc idle = idleProc f := by
  have hblank : ((start value memory).allocProc idle).proc idle = .blank := Function.update_self ..
  change (((start value memory).allocProc idle).setProc idle fun q ↦
    { q with pid := 0, state := .runnable, needResched := true, filesp := some f }).proc idle = _
  rw [setProc_self, hblank, idleProc]

theorem booting_proc_of_ne (value : ℕ → ℤ) (memory : Memory) (idle f page : ℕ) {p : ℕ}
    (hp : p ≠ idle) : (booting value memory idle f page).proc p = .blank := by
  change (((start value memory).allocProc idle).setProc idle fun q ↦
    { q with pid := 0, state := .runnable, needResched := true, filesp := some f }).proc p = _
  rw [setProc_of_ne _ hp]
  exact Function.update_of_ne hp ..

theorem booting_active (value : ℕ → ℤ) (memory : Memory) (idle f page : ℕ) :
    (booting value memory idle f page).Active True := by
  set s := booting value memory idle f page with hs
  have hmem : ∀ p, p ∈ s.live ↔ p = idle := fun p ↦ by
    change p ∈ insert idle ∅ ↔ _
    rw [Finset.mem_insert, or_iff_left (Finset.notMem_empty p)]
  have hproc : s.proc idle = idleProc f := booting_proc_self value memory idle f page
  have hblank : ∀ p, p ≠ idle → s.proc p = .blank := fun p hp ↦
    booting_proc_of_ne value memory idle f page hp
  have hcode : ∀ p, s.code p = [] := booting_code value memory idle f page
  have hsleep : ∀ p, (s.proc p).state ≠ .sleeping := by
    intro p
    rcases eq_or_ne p idle with rfl | hp
    · rw [hproc]
      exact ProcState.noConfusion
    · rw [hblank p hp]
      exact ProcState.noConfusion
  refine ⟨⟨⟨(hmem idle).mpr rfl, (hmem idle).mpr rfl, ?_, .inl (hcode idle), fun p ↦ ?_,
    fun p hp ↦ ?_, fun p hp hne ↦ absurd ((hmem p).mp hp) hne, ⟨fun p ↦ ?_, List.nodup_nil, .refl _,
    rfl⟩, ⟨[], TimersOk.nil⟩, fun t ht ↦ ?_, fun p q hq ↦ ?_, fun p q q' hq _ ↦ ?_⟩, ?_⟩, ?_, ?_,
    hcode idle, .inl trivial⟩
  · change (s.proc idle).state = .runnable
    rw [hproc, idleProc]
  · change Shape (p = idle) _ _ _ _
    rw [hcode]
    rcases eq_or_ne p idle with rfl | hp
    · rw [hproc]
      exact .plain .nil
    · rw [hblank p hp]
      exact .uninit hp
  · have hne : p ≠ idle := fun heq ↦ hp ((hmem p).mpr heq)
    rw [hblank p hne]
    exact .inl rfl
  · constructor
    · intro hp
      exact absurd hp List.not_mem_nil
    · intro hp
      exact absurd ((hmem p).mp hp.1) hp.2.2.2
  · exact absurd ht List.not_mem_nil
  · rw [hcode] at hq
    cases hq
  · rw [hcode] at hq
    cases hq
  · have hplace : s.place = fun _ ↦ none := funext fun p ↦ place_of_ne (hsleep p)
    rw [SemsOk, hplace]
    exact WaitQueue.Agree.of_nil
  · change (s.proc idle).state = .runnable
    rw [hproc, idleProc]
  · change (s.proc idle).waitState = 0
    rw [hproc]
    rfl

/-- The call of `do_fork` at boot succeeds. -/
theorem procInit_eq {idle f page : ℕ} {mem : ForkMem} {value : ℕ → ℤ} {memory : Memory}
    (hrun : (procInit idle f page mem).run (start value memory) = .ok () t) :
    ∃ pid u p, (Ucore.doFork cloneVm mem).run (booting value memory idle f page) = .ok pid u ∧
      u.findProc pid = some p ∧ (u.proc p).pid = 1 ∧ t = { u with initproc := p } := by
  rw [procInit, modify_bind_run, modify_bind_run, modify_bind_run] at hrun
  change (Ucore.doFork cloneVm mem >>= _ : KProg Unit).run (booting value memory idle f page) =
    .ok () t at hrun
  rw [run_bind] at hrun
  cases hfork : (Ucore.doFork cloneVm mem).run (booting value memory idle f page) with
  | error e u =>
    rw [hfork] at hrun
    cases hrun
  | panic =>
    rw [hfork] at hrun
    cases hrun
  | ok pid u =>
    rw [hfork] at hrun
    dsimp only at hrun
    rw [get_bind_run] at hrun
    cases hfind : u.findProc pid with
    | none =>
      rw [hfind] at hrun
      cases hrun
    | some p =>
      rw [hfind] at hrun
      dsimp only at hrun
      rw [modify_bind_run] at hrun
      by_cases hpid : (u.proc p).pid = 1
      · rw [run_assert hpid] at hrun
        cases hrun
        exact ⟨pid, u, p, rfl, hfind, hpid, rfl⟩
      · rw [run_assert_neg hpid] at hrun
        cases hrun

theorem Booted.runOk {value : ℕ → ℤ} (h : Booted value s) : s.RunOk := by
  obtain ⟨idle, f, page, mem, memory, hidle, ⟨g, hg, -⟩, hrun⟩ := h
  obtain ⟨pid, u, p, hfork, -, -, rfl⟩ := procInit_eq hrun
  have hfiles : mem.files.addr ≠ none := by
    rw [hg]
    exact Option.some_ne_none g
  have hok := (booting_active value memory idle f page).doFork cloneVm mem (fun q hq hlive ↦ ?_)
    (.inr hfiles)
  · rw [hfork] at hok
    have hu : u.RunOk := hok
    have hs := hu.sched
    exact ⟨⟨hs.current_live, hs.idle_live, hs.idle_runnable, hs.idle_code, hs.shape, hs.unused,
      hs.parent, hs.queue, hs.timers, hs.timer, hs.embryo, hs.embryo_unique⟩, hu.sems⟩
  · change q ∈ insert idle ∅ at hlive
    rw [Finset.mem_insert, or_iff_left (Finset.notMem_empty q)] at hlive
    exact hidle q hq hlive

end Kernel

/-! ## The run queue in every run -/

/-- The processes in state `PROC_RUNNABLE` other than the running one and the idle process. -/
def Kernel.ready (s : Kernel) : Finset ℕ := s.live.filter s.Ready

/-- In every state of every run from boot on in which the calls of `do_fork` that reach `copy_files`
succeed, the run queue holds exactly the processes in state `PROC_RUNNABLE` other than the running
one and the idle process, each once, in the heap and in the list, and `proc_num` is their number.
The next section does not halt where it calls `wakeup_proc`, and neither does an interrupt of the
clock. -/
theorem runQueue_ready {value : ℕ → ℤ} {s t : Kernel} {events : List Event} (hboot : Booted value s)
    (hrun : KRun ForksPublish s events t) :
    (∀ p, p ∈ t.rq.pool.toList ↔ t.Ready p) ∧ t.rq.pool.toList.Nodup ∧
      t.rq.runList.Perm t.rq.pool.toList ∧ t.rq.procNum = t.ready.card ∧
      timerInterrupt.run t ≠ .panic ∧ ∀ i rest, t.code t.current = i :: rest →
        (i = .exitTell ∨ (∃ k, i = .up k) ∨ (∃ pid, i = .kill pid) ∨
          ∃ flags p mem, i = .forkWake flags p mem) →
        i.exec.run (t.setCode t.current rest) ≠ .panic := by
  have h : t.RunOk := (Kernel.Booted.runOk hboot).run hrun
  have hq := h.sched.queue
  refine ⟨hq.mem_iff, hq.nodup, hq.perm, ?_, ?_, fun i rest hcode hi ↦ ?_⟩
  · have hset : t.ready = t.rq.pool.toList.toFinset := by
      ext p
      rw [List.mem_toFinset, hq.mem_iff, Kernel.ready, Finset.mem_filter]
      exact ⟨And.right, fun hready ↦ ⟨hready.1, hready⟩⟩
    rw [hq.num, hq.perm.length_eq, hset, List.toFinset_card_of_nodup hq.nodup]
  · obtain ⟨u, hu, -⟩ := h.timerInterrupt
    rw [hu]
    exact Outcome.ok_ne_panic
  · rcases hi with rfl | ⟨k, rfl⟩ | ⟨pid, rfl⟩ | ⟨flags, p, mem, rfl⟩
    · obtain ⟨u, hu, -⟩ := (h.setCode_exitTell hcode).exitTell (h.ne_idle hcode Section.noConfusion)
      rw [Section.exec, hu]
      exact Outcome.ok_ne_panic
    · have hok := (h.pop hcode trivial Section.noConfusion).1.ok
      rw [Section.exec]
      cases hsem : ((t.setCode t.current rest).sems k).queue with
      | nil =>
        rw [Kernel.run_up_of_nil hsem]
        exact Outcome.ok_ne_panic
      | cons p queue =>
        rw [hok.run_up_of_cons hsem]
        exact Outcome.ok_ne_panic
    · rw [Section.exec]
      rcases (h.pop hcode trivial Section.noConfusion).1.ok.doKill pid with ⟨e, hu⟩ | ⟨u, hu, -⟩
      · rw [hu]
        exact Outcome.error_ne_panic
      · rw [hu]
        exact Outcome.ok_ne_panic
    · obtain ⟨u, hu, -⟩ := (h.pop_embryonic hcode rfl).forkWake flags mem
      rw [hu]
      exact Outcome.ok_ne_panic

/-- `initproc` makes two processes and waits for them. -/
theorem runQueue_ready_sample : ∃ s events t, Booted (fun _ ↦ 1) s ∧ KRun ForksPublish s events t ∧
    t.current = 4 ∧ t.rq.pool.toList = [3] ∧ t.rq.procNum = t.ready.card := by
  have hrun : (followBoot ForksPublish (sampleBoot fun _ ↦ 1)
      [.call .schedule, .run, .call (.fork 0 (sampleFork 3 3 3)), .run, .run, .run, .run,
        .call (.fork 0 (sampleFork 4 4 4)), .run, .run, .run, .run, .interrupt,
        .call (.wait 0), .run, .run, .run]).map
      (fun r ↦ (r.2.current, r.2.rq.pool.toList)) = some (4, [3]) := by decide +kernel
  obtain ⟨⟨events, t⟩, hfollow, hfacts⟩ := Option.map_eq_some_iff.mp hrun
  obtain ⟨s, hboot, hkrun⟩ := followBoot_krun hfollow
  obtain ⟨hcur, hpool⟩ := Prod.mk.inj hfacts
  exact ⟨s, events, t, hboot, hkrun, hcur, hpool, (runQueue_ready hboot hkrun).2.2.2.1⟩

end Ucore
