import Ucore.Proc.ForkTrace

/-!
# Sections that leave the process tree alone

Most of what the kernel does touches neither the links between processes nor the lists that
processes are found on. `SameKin` says so of two states, and each routine that it holds of is listed
here. What is left for `Ucore.Proc.FamilyRuns` are the sections of `do_fork` up to `set_links`, the
scan of `do_wait` and the end of `do_exit`.
-/

namespace Ucore

open Prog

/-- The process structure that a section of `do_fork` has still to link. -/
def Section.linking? : Section → Option ℕ
  | .forkDup _ p _ _ | .forkMm _ p _ _ | .forkLink _ p _ => some p
  | _ => none

/-- The process structure that a list of sections has still to link. -/
def linking? (l : List Section) : Option ℕ := l.getLast?.bind Section.linking?

/-- Sections that make a process a zombie or that wait for one. -/
def Section.Marked : Section → Prop
  | .exitZombie _ | .waitSleep _ | .waitRet _ => True
  | _ => False

/-- Sections that neither link a process nor are marked. -/
def Section.Quiet : Section → Prop
  | .forkDup _ _ _ _ | .forkMm _ _ _ _ | .forkLink _ _ _ => False
  | .exitZombie _ | .waitSleep _ | .waitRet _ => False
  | _ => True

/-- Sections that leave the process tree alone. -/
def Section.Kinless : Section → Prop
  | .schedule | .waitScan _ | .waitSleep _ | .fork _ _ | .forkDup _ _ _ _ | .forkMm _ _ _ _
  | .forkLink _ _ _ | .exit _ | .exitZombie _ | .exitTell | .exited => False
  | _ => True

/-- Two states agree on the process tree and on the lists of processes. -/
structure SameKin (s t : Kernel) : Prop where
  live : t.live = s.live
  current : t.current = s.current
  idleproc : t.idleproc = s.idleproc
  initproc : t.initproc = s.initproc
  procList : t.procList = s.procList
  hashList : t.hashList = s.hashList
  nrProcess : t.nrProcess = s.nrProcess
  /-- The static variables of `get_pid`. -/
  counters : t.lastPid = s.lastPid ∧ t.nextSafe = s.nextSafe
  pid : ∀ p, (t.proc p).pid = (s.proc p).pid
  parent : ∀ p, (t.proc p).parent = (s.proc p).parent
  cptr : ∀ p, (t.proc p).cptr = (s.proc p).cptr
  yptr : ∀ p, (t.proc p).yptr = (s.proc p).yptr
  optr : ∀ p, (t.proc p).optr = (s.proc p).optr
  /-- No process becomes a zombie. -/
  zombie : ∀ p, (t.proc p).state = .zombie → (s.proc p).state = .zombie
  linking : ∀ q, linking? (t.code q) = linking? (s.code q)
  marked : ∀ q i, i.Marked → i ∈ t.code q → i ∈ s.code q
  /-- No process goes to sleep but the running one. -/
  asleep : ∀ q, (t.proc q).state = .sleeping → (s.proc q).state = .sleeping ∨ q = s.current
  others : ∀ q, q ≠ s.current → t.code q = s.code q

/-! ## Lists of sections -/

section Lists

variable {i : Section} {l rest : List Section} {p : ℕ}

theorem Section.Quiet.linking?_eq (h : i.Quiet) : i.linking? = none := by
  cases i <;> first | rfl | exact absurd h id

theorem Section.Quiet.not_marked (h : i.Quiet) : ¬i.Marked := by
  cases i <;> first | exact id | exact absurd h id

theorem linking?_nil : linking? [] = none := rfl

theorem linking?_singleton (i : Section) : linking? [i] = i.linking? := rfl

theorem linking?_cons_of_ne (i : Section) (h : l ≠ []) : linking? (i :: l) = linking? l := by
  rw [linking?, linking?, List.getLast?_cons_of_ne_nil h]

theorem linking?_cons (h : i.linking? = none) : linking? (i :: l) = linking? l := by
  by_cases hl : l = []
  · rw [hl, linking?_singleton, h, linking?_nil]
  · exact linking?_cons_of_ne i hl

theorem linking?_append (h : ∀ i ∈ l, i.linking? = none) :
    linking? (l ++ rest) = linking? rest := by
  induction l with
  | nil => rfl
  | cons i l ih =>
    rw [List.cons_append, linking?_cons (h i List.mem_cons_self),
      ih fun j hj ↦ h j (List.mem_cons_of_mem i hj)]

theorem Section.Kinless.linking?_eq (h : i.Kinless) : i.linking? = none := by
  cases i <;> first | rfl | exact absurd h id

theorem embryo?_of_linking? (h : linking? l = some p) : embryo? l = some p := by
  rw [linking?, Option.bind_eq_some_iff] at h
  obtain ⟨i, hi, hp⟩ := h
  rw [embryo?, hi, Option.bind_some]
  cases i <;> first | exact hp | cases hp

end Lists

namespace SameKin

variable {s t u : Kernel}

theorem refl (s : Kernel) : SameKin s s :=
  ⟨rfl, rfl, rfl, rfl, rfl, rfl, rfl, ⟨rfl, rfl⟩, fun _ ↦ rfl, fun _ ↦ rfl, fun _ ↦ rfl,
    fun _ ↦ rfl, fun _ ↦ rfl, fun _ ↦ id, fun _ ↦ rfl, fun _ _ _ ↦ id, fun _ ↦ .inl,
    fun _ _ ↦ rfl⟩

theorem trans (h : SameKin s t) (h' : SameKin t u) : SameKin s u where
  live := h'.live.trans h.live
  current := h'.current.trans h.current
  idleproc := h'.idleproc.trans h.idleproc
  initproc := h'.initproc.trans h.initproc
  procList := h'.procList.trans h.procList
  hashList := h'.hashList.trans h.hashList
  nrProcess := h'.nrProcess.trans h.nrProcess
  counters := ⟨h'.counters.1.trans h.counters.1, h'.counters.2.trans h.counters.2⟩
  pid p := (h'.pid p).trans (h.pid p)
  parent p := (h'.parent p).trans (h.parent p)
  cptr p := (h'.cptr p).trans (h.cptr p)
  yptr p := (h'.yptr p).trans (h.yptr p)
  optr p := (h'.optr p).trans (h.optr p)
  zombie p hp := h.zombie p (h'.zombie p hp)
  linking q := (h'.linking q).trans (h.linking q)
  marked q i hi hq := h.marked q i hi (h'.marked q i hi hq)
  asleep q hq := (h'.asleep q hq).elim (h.asleep q) fun hc ↦ .inr (hc.trans h.current)
  others q hq := (h'.others q (h.current ▸ hq)).trans (h.others q hq)

theorem exits (h : SameKin s t) (q : ℕ) (code : ℤ) (hq : .exitZombie code ∈ t.code q) :
    .exitZombie code ∈ s.code q := h.marked q _ trivial hq

instance : Std.Refl SameKin := ⟨refl⟩

instance : IsTrans Kernel SameKin := ⟨fun _ _ _ ↦ trans⟩

/-- Nothing but memory, semaphores, timers and the run queue changes. -/
theorem of_proc (hproc : t.proc = s.proc) (hlive : t.live = s.live)
    (hcur : t.current = s.current) (hidle : t.idleproc = s.idleproc)
    (hinit : t.initproc = s.initproc) (hlist : t.procList = s.procList)
    (hhash : t.hashList = s.hashList) (hnum : t.nrProcess = s.nrProcess)
    (hcount : t.lastPid = s.lastPid ∧ t.nextSafe = s.nextSafe) (hcode : t.code = s.code) :
    SameKin s t := by
  refine ⟨hlive, hcur, hidle, hinit, hlist, hhash, hnum, hcount, fun p ↦ ?_, fun p ↦ ?_,
    fun p ↦ ?_, fun p ↦ ?_, fun p ↦ ?_, fun p hp ↦ ?_, fun q ↦ ?_, fun q i _ hq ↦ ?_,
    fun q hq ↦ .inl ?_, fun q _ ↦ ?_⟩
  · rw [hproc]
  · rw [hproc]
  · rw [hproc]
  · rw [hproc]
  · rw [hproc]
  · rwa [hproc] at hp
  · rw [hcode]
  · rwa [hcode] at hq
  · rwa [hproc] at hq
  · rw [hcode]

theorem setMem (s : Kernel) (f : Memory → Memory) : SameKin s (s.setMem f) :=
  of_proc rfl rfl rfl rfl rfl rfl rfl rfl ⟨rfl, rfl⟩ rfl

theorem setSem (s : Kernel) (k : ℕ) (sem : Sem ℕ) : SameKin s (s.setSem k sem) :=
  of_proc rfl rfl rfl rfl rfl rfl rfl rfl ⟨rfl, rfl⟩ rfl

theorem setFlags (s : Kernel) (p : ℕ) (flags : BitVec 32) : SameKin s (s.setFlags p flags) :=
  of_proc rfl rfl rfl rfl rfl rfl rfl rfl ⟨rfl, rfl⟩ rfl

theorem setTimers (s : Kernel) (list : List Timer) : SameKin s { s with timers := list } :=
  of_proc rfl rfl rfl rfl rfl rfl rfl rfl ⟨rfl, rfl⟩ rfl

theorem onTimers {α : Type} (m : Prog Errno (List Timer) α) : Moves SameKin (onTimers m) := by
  rw [Ucore.onTimers]
  exact .zoom (fun list s ↦ setTimers s list) m

/-- A change of fields that are no links. -/
theorem setProc (s : Kernel) (p : ℕ) {f : Proc → Proc} (hpid : ∀ q, (f q).pid = q.pid)
    (hpar : ∀ q, (f q).parent = q.parent) (hc : ∀ q, (f q).cptr = q.cptr)
    (hy : ∀ q, (f q).yptr = q.yptr) (ho : ∀ q, (f q).optr = q.optr)
    (hz : (f (s.proc p)).state = .zombie → (s.proc p).state = .zombie)
    (hs : (f (s.proc p)).state = .sleeping → (s.proc p).state = .sleeping ∨ p = s.current) :
    SameKin s (s.setProc p f) where
  live := rfl
  current := rfl
  idleproc := rfl
  initproc := rfl
  procList := rfl
  hashList := rfl
  nrProcess := rfl
  counters := ⟨rfl, rfl⟩
  pid := s.setProc_field (g := Proc.pid) p hpid
  parent := s.setProc_field (g := Proc.parent) p hpar
  cptr := s.setProc_field (g := Proc.cptr) p hc
  yptr := s.setProc_field (g := Proc.yptr) p hy
  optr := s.setProc_field (g := Proc.optr) p ho
  zombie q hq := by
    rcases eq_or_ne q p with rfl | hne
    · rw [Kernel.setProc_self] at hq
      exact hz hq
    · rwa [Kernel.setProc_of_ne s hne] at hq
  linking _ := rfl
  marked _ _ _ := id
  asleep q hq := by
    rcases eq_or_ne q p with rfl | hne
    · rw [Kernel.setProc_self] at hq
      exact hs hq
    · rw [Kernel.setProc_of_ne s hne] at hq
      exact .inl hq
  others _ _ := rfl

/-- Sections that neither link a process nor make one a zombie are put in front. -/
theorem push (s : Kernel) {l : List Section} (hl : ∀ i ∈ l, i.Quiet) : SameKin s (s.push l) where
  live := rfl
  current := rfl
  idleproc := rfl
  initproc := rfl
  procList := rfl
  hashList := rfl
  nrProcess := rfl
  counters := ⟨rfl, rfl⟩
  pid _ := rfl
  parent _ := rfl
  cptr _ := rfl
  yptr _ := rfl
  optr _ := rfl
  zombie _ := id
  linking q := by
    rcases eq_or_ne q s.current with rfl | hne
    · rw [Kernel.push, Kernel.setCode_self, linking?_append fun i hi ↦ (hl i hi).linking?_eq]
    · rw [Kernel.push, Kernel.setCode_of_ne s hne]
  marked q i hi hq := by
    rcases eq_or_ne q s.current with rfl | hne
    · rw [Kernel.push, Kernel.setCode_self] at hq
      rcases List.mem_append.mp hq with hmem | hmem
      · exact absurd hi (hl i hmem).not_marked
      · exact hmem
    · rwa [Kernel.push, Kernel.setCode_of_ne s hne] at hq
  asleep _ := .inl
  others q hne := Kernel.setCode_of_ne s hne _

/-- The section at the front is taken away. -/
theorem pop {i : Section} {rest : List Section} (hcode : s.code s.current = i :: rest)
    (hi : i.linking? = none) : SameKin s (s.setCode s.current rest) where
  live := rfl
  current := rfl
  idleproc := rfl
  initproc := rfl
  procList := rfl
  hashList := rfl
  nrProcess := rfl
  counters := ⟨rfl, rfl⟩
  pid _ := rfl
  parent _ := rfl
  cptr _ := rfl
  yptr _ := rfl
  optr _ := rfl
  zombie _ := id
  linking q := by
    rcases eq_or_ne q s.current with rfl | hne
    · rw [Kernel.setCode_self, hcode, linking?_cons hi]
    · rw [Kernel.setCode_of_ne s hne]
  marked q j _ hq := by
    rcases eq_or_ne q s.current with rfl | hne
    · rw [Kernel.setCode_self] at hq
      rw [hcode]
      exact List.mem_cons_of_mem i hq
    · rwa [Kernel.setCode_of_ne s hne] at hq
  asleep _ := .inl
  others q hne := Kernel.setCode_of_ne s hne _

/-! ## The scheduler -/

theorem schedClassEnqueue (s : Kernel) (p : ℕ) : SameKin s (s.schedClassEnqueue p) := by
  rw [Kernel.schedClassEnqueue]
  split_ifs
  · exact refl s
  · rw [Kernel.strideEnqueue]
    refine (setProc s p (f := fun q ↦ { q with
        timeSlice := if q.timeSlice = 0 ∨ Kernel.maxTimeSlice < q.timeSlice then Kernel.maxTimeSlice
          else q.timeSlice }) (fun _ ↦ rfl) (fun _ ↦ rfl) (fun _ ↦ rfl) (fun _ ↦ rfl)
      (fun _ ↦ rfl) id .inl).trans ?_
    exact of_proc rfl rfl rfl rfl rfl rfl rfl rfl ⟨rfl, rfl⟩ rfl

theorem requeue (s : Kernel) : SameKin s s.requeue := by
  have hset := setProc s s.current (f := fun q ↦ { q with needResched := false }) (fun _ ↦ rfl)
    (fun _ ↦ rfl) (fun _ ↦ rfl) (fun _ ↦ rfl) (fun _ ↦ rfl) id .inl
  rw [Kernel.requeue]
  split_ifs
  · exact hset.trans (schedClassEnqueue _ _)
  · exact hset

/-- `schedule` leaves the tree alone and gives the processor to another process. -/
theorem schedule (s : Kernel) : ∃ t p rq, SameKin s t ∧ s.schedule = t.setCurrent p rq := by
  have hreq := requeue s
  rw [Kernel.schedule, Kernel.switch]
  cases s.requeue.rq.pool.root with
  | none => exact ⟨_, _, _, hreq, rfl⟩
  | some next =>
    exact ⟨_, _, _, hreq.trans (setProc _ next
      (f := fun q ↦ { q with stride := q.stride + Kernel.strideStep q.priority }) (fun _ ↦ rfl)
      (fun _ ↦ rfl) (fun _ ↦ rfl) (fun _ ↦ rfl) (fun _ ↦ rfl) id .inl), rfl⟩

theorem schedClassProcTick (s : Kernel) (p : ℕ) : SameKin s (s.schedClassProcTick p) := by
  rw [Kernel.schedClassProcTick]
  split_ifs
  · exact setProc s p (fun _ ↦ rfl) (fun _ ↦ rfl) (fun _ ↦ rfl) (fun _ ↦ rfl) (fun _ ↦ rfl) id .inl
  · exact setProc s p (fun _ ↦ rfl) (fun _ ↦ rfl) (fun _ ↦ rfl) (fun _ ↦ rfl) (fun _ ↦ rfl) id .inl

theorem wakeupProc (p : ℕ) : Moves SameKin (wakeupProc p) := by
  refine .bind .get fun s ↦ .bind (.assert _) fun _ ↦ ?_
  refine .ite (fun _ ↦ .bind (.modify fun s ↦ ?_) fun _ ↦ ?_) fun _ ↦ .pure ()
  · exact setProc s p (fun _ ↦ rfl) (fun _ ↦ rfl) (fun _ ↦ rfl) (fun _ ↦ rfl) (fun _ ↦ rfl)
      (fun h ↦ absurd h ProcState.noConfusion) fun h ↦ absurd h ProcState.noConfusion
  · exact .ite (fun _ ↦ .modify fun s ↦ schedClassEnqueue s p) fun _ ↦ .pure ()

theorem wakeupIf (c : Prop) [Decidable c] (p : ℕ) : Moves SameKin (wakeupIf c p) :=
  .ite (fun _ ↦ wakeupProc p) fun _ ↦ .pure ()

/-- `wakeup_proc` does not fail. -/
theorem wakeupIf_sat (c : Prop) [Decidable c] (p : ℕ) (s : Kernel) :
    ((Ucore.wakeupIf c p).run s).Sat (fun _ t ↦ SameKin s t) fun _ _ ↦ False := by
  rw [Ucore.wakeupIf]
  split_ifs
  · have hsame := wakeupProc p s
    by_cases hz : (s.proc p).state = .zombie
    · rw [Ucore.wakeupProc, get_bind_run, assert_bind_run_neg (not_not.mpr hz)]
      trivial
    · rw [run_wakeupProc hz] at hsame ⊢
      exact hsame
  · exact refl s

theorem wakeupTimers (l : List Timer) : Moves SameKin (wakeupTimers l) := by
  induction l with
  | nil => exact .pure ()
  | cons timer l ih =>
    rw [Ucore.wakeupTimers]
    cases timer.proc with
    | none => exact .halt
    | some p =>
      exact .bind .get fun _ ↦ .bind (.assert _) fun _ ↦ .bind (wakeupProc p) fun _ ↦ ih

theorem timerInterrupt : Moves SameKin timerInterrupt :=
  .bind (onTimers _) fun l ↦ .bind (wakeupTimers l) fun _ ↦ .modify fun s ↦
    schedClassProcTick s s.current

/-! ## Semaphores, timers and signals -/

theorem up (k : ℕ) : Moves SameKin (up k) := by
  refine .bind .get fun s ↦ ?_
  cases (s.sems k).up with
  | mk sem o =>
    cases o with
    | none => exact .bind (.modify fun s ↦ setSem s k sem) fun _ ↦ .pure _
    | some p =>
      refine .bind (.assert _) fun _ ↦ .bind (.modify fun s ↦ ?_) fun _ ↦ ?_
      · exact (setSem s k sem).trans (setFlags _ p wtKsem)
      · exact .bind (wakeupProc p) fun _ ↦ .pure _

theorem down (k : ℕ) : Moves SameKin (down k) := by
  refine .bind .get fun s ↦ ?_
  cases (s.sems k).down s.current with
  | mk sem b =>
    cases b with
    | true => exact .bind (.modify fun s ↦ setSem s k sem) fun _ ↦ .pure _
    | false =>
      refine .bind (.modify fun t ↦ ?_) fun _ ↦ .pure _
      have hflags := (setSem t k sem).trans (setFlags _ t.current wtInterrupted)
      have hproc := hflags.trans (setProc _ t.current
        (f := fun q ↦ { q with state := .sleeping, waitState := wtKsem }) (fun _ ↦ rfl)
        (fun _ ↦ rfl) (fun _ ↦ rfl) (fun _ ↦ rfl) (fun _ ↦ rfl)
        (fun h ↦ absurd h ProcState.noConfusion) fun _ ↦ .inr rfl)
      exact hproc.trans (push _ (by simp [Section.Quiet]))

theorem downRet (k : ℕ) : Moves SameKin (downRet k) :=
  .bind (.modify fun s ↦ setSem s k _) fun _ ↦ .bind .get fun _ ↦ .bind (.assert _) fun _ ↦
    .pure _

theorem tryDown (k : ℕ) : Moves SameKin (tryDown k) := by
  refine .bind .get fun s ↦ ?_
  cases (s.sems k).tryDown with
  | mk sem b =>
    cases b with
    | true => exact .bind (.modify fun s ↦ setSem s k sem) fun _ ↦ .pure _
    | false => exact .pure _

theorem doSleep (time : BitVec 32) : Moves SameKin (doSleep time) := by
  refine .ite (fun _ ↦ .pure _) fun _ ↦ .bind .get fun s ↦ .bind (.modify fun t ↦ ?_) fun _ ↦ ?_
  · exact setProc t t.current (fun _ ↦ rfl) (fun _ ↦ rfl) (fun _ ↦ rfl) (fun _ ↦ rfl)
      (fun _ ↦ rfl) (fun h ↦ absurd h ProcState.noConfusion) fun _ ↦ .inr rfl
  · refine .bind (onTimers _) fun _ ↦ .bind (.modify fun t ↦ ?_) fun _ ↦ .pure _
    exact push t (by simp [Section.Quiet])

theorem sleepRet : Moves SameKin sleepRet :=
  .bind .get fun _ ↦ .bind (onTimers _) fun _ ↦ .pure _

theorem waitRet (pid : ℕ) : Moves SameKin (waitRet pid) := by
  refine .bind .get fun s ↦ .bind (.modify fun t ↦ push t ?_) fun _ ↦ .pure _
  split_ifs <;> simp [doExit, Section.Quiet]

theorem doKill (pid : ℕ) : Moves SameKin (doKill pid) := by
  refine .bind .get fun s ↦ ?_
  cases s.findProc pid with
  | none => exact .fail _
  | some p =>
    refine .ite (fun _ ↦ .fail _) fun _ ↦ .bind (.modify fun t ↦ ?_) fun _ ↦ ?_
    · exact setProc t p (fun _ ↦ rfl) (fun _ ↦ rfl) (fun _ ↦ rfl) (fun _ ↦ rfl) (fun _ ↦ rfl) id
        .inl
    · exact .bind (wakeupIf _ p) fun _ ↦ .pure _

theorem setPriority (priority : BitVec 32) :
    Moves SameKin (Section.exec (.setPriority priority)) := by
  refine .bind (.modify fun s ↦ ?_) fun _ ↦ .pure _
  exact setProc s s.current (fun _ ↦ rfl) (fun _ ↦ rfl) (fun _ ↦ rfl) (fun _ ↦ rfl)
    (fun _ ↦ rfl) id .inl

/-! ## Memory and open files -/

theorem setFiles (s : Kernel) (f : ℕ) (g : Files → Files) : SameKin s (s.setFiles f g) :=
  setMem s _

theorem setFile (s : Kernel) (f fd : ℕ) (g : File → File) : SameKin s (s.setFile f fd g) :=
  setFiles s f _

theorem mmFree (s : Kernel) (m : ℕ) : SameKin s (s.mmFree m) := (setMem s _).trans (setMem _ _)

theorem goodMm (s : Kernel) (p m : ℕ) : SameKin s (s.goodMm p m) :=
  (setMem s _).trans (setProc _ p (fun _ ↦ rfl) (fun _ ↦ rfl) (fun _ ↦ rfl) (fun _ ↦ rfl)
    (fun _ ↦ rfl) id .inl)

theorem getFdArray : Moves SameKin getFdArray := by
  refine .bind .get fun s ↦ ?_
  cases (s.proc s.current).filesp with
  | none => exact .halt
  | some f => exact .bind (.assert _) fun _ ↦ .pure f

theorem fdArrayAlloc (fd : Option ℕ) : Moves SameKin (fdArrayAlloc fd) := by
  refine .bind getFdArray fun f ↦ .bind .get fun s ↦ ?_
  cases s.freeFd f fd with
  | error e => exact .fail e
  | ok fd =>
    exact .bind (.assert _) fun _ ↦ .bind (.modify fun s ↦ setFile s f fd _) fun _ ↦ .pure _

theorem fd2file (fd : ℕ) : Moves SameKin (fd2file fd) := by
  refine .ite (fun _ ↦ .bind getFdArray fun f ↦ .bind .get fun s ↦ ?_) fun _ ↦ .fail _
  exact .ite (fun _ ↦ .pure f) fun _ ↦ .fail _

theorem fdArrayOpen (f fd node : ℕ) : Moves SameKin (fdArrayOpen f fd node) :=
  .bind .get fun _ ↦ .bind (.assert _) fun _ ↦ .modify fun s ↦ setFile s f fd _

theorem fdArrayFree (f fd : ℕ) : Moves SameKin (fdArrayFree f fd) :=
  .modify fun s ↦ setFile s f fd _

theorem fopenCountDec (f fd : ℕ) : Moves SameKin (fopenCountDec f fd) := by
  refine .bind (.modify fun s ↦ setFile s f fd _) fun _ ↦ .bind .get fun _ ↦ ?_
  refine .ite (fun _ ↦ .bind (.assert _) fun _ ↦ .bind (.modify fun s ↦ ?_) fun _ ↦ .pure _)
    fun _ ↦ .pure _
  exact push s (by simp [Section.Quiet])

theorem fdArrayRelease (f fd : ℕ) : Moves SameKin (fdArrayRelease f fd) :=
  .bind .get fun _ ↦ .bind (.assert _) fun _ ↦ .bind (.assert _) fun _ ↦ fopenCountDec f fd

theorem fdArrayClose (f fd : ℕ) : Moves SameKin (fdArrayClose f fd) :=
  .bind .get fun _ ↦ .bind (.assert _) fun _ ↦ .bind (.assert _) fun _ ↦
    .bind (.modify fun s ↦ setFile s f fd _) fun _ ↦ fopenCountDec f fd

theorem fileOpen (result : Except Errno ℕ) : Moves SameKin (fileOpen result) :=
  .bind (fdArrayAlloc none) fun _ ↦ .bind (.modify fun s ↦ push s (by simp [Section.Quiet]))
    fun _ ↦ .pure _

theorem openedFd (f fd : ℕ) (result : Except Errno ℕ) : Moves SameKin (openedFd f fd result) := by
  cases result with
  | error e => exact .bind (fdArrayFree f fd) fun _ ↦ .fail e
  | ok node => exact .bind (fdArrayOpen f fd node) fun _ ↦ .pure _

theorem fileUse (fd : ℕ) : Moves SameKin (fileUse fd) := by
  refine .bind (fd2file fd) fun f ↦ .bind (.modify fun s ↦ ?_) fun _ ↦ .pure _
  exact (setFile s f fd _).trans (push _ (by simp [Section.Quiet]))

theorem fileClose (fd : ℕ) : Moves SameKin (fileClose fd) :=
  .bind (fd2file fd) fun f ↦ fdArrayClose f fd

theorem fileDup (fd1 : ℕ) (fd2 : Option ℕ) : Moves SameKin (fileDup fd1 fd2) :=
  .bind (fd2file fd1) fun _ ↦ .bind (fdArrayAlloc fd2) fun _ ↦ .bind .get fun _ ↦
    .bind (fdArrayOpen _ _ _) fun _ ↦ .pure _

theorem putFiles : Moves SameKin putFiles := by
  refine .bind .get fun s ↦ ?_
  cases (s.proc s.current).filesp with
  | none => exact .pure _
  | some f =>
    refine .bind (.modify fun s ↦ setMem s _) fun _ ↦ .bind (.modify fun t ↦ push t ?_) fun _ ↦
      .pure _
    split_ifs
    · intro i hi
      simp only [List.cons_append, List.mem_cons, List.mem_append, List.mem_map,
        List.not_mem_nil, or_false] at hi
      rcases hi with rfl | ⟨_, -, rfl⟩ | rfl <;> trivial
    · simp

theorem destroyFd (f fd : ℕ) : Moves SameKin (destroyFd f fd) := by
  refine .bind .get fun s ↦ .bind (.modify fun t ↦ push t ?_) fun _ ↦ .pure _
  split_ifs <;> simp [Section.Quiet]

theorem noneFd (f fd : ℕ) : Moves SameKin (Section.exec (.noneFd f fd)) :=
  .bind .get fun _ ↦ .bind (.assert _) fun _ ↦ .pure _

theorem closeallFd (f fd : ℕ) : Moves SameKin (closeallFd f fd) := by
  refine .bind .get fun s ↦ .bind (.modify fun t ↦ push t ?_) fun _ ↦ .pure _
  split_ifs <;> simp [Section.Quiet]

theorem dropMm : Moves SameKin dropMm := by
  refine .bind .get fun s ↦ ?_
  cases (s.proc s.current).mm with
  | none => exact .pure _
  | some m =>
    refine .bind (.modify fun s ↦ setMem s _) fun _ ↦ .bind .get fun t ↦
      .bind (.modify fun u ↦ ?_) fun _ ↦ .bind (.modify fun u ↦ ?_) fun _ ↦ .pure _
    · split_ifs
      · exact mmFree u m
      · exact refl u
    · exact setProc u u.current (fun _ ↦ rfl) (fun _ ↦ rfl) (fun _ ↦ rfl) (fun _ ↦ rfl)
        (fun _ ↦ rfl) id .inl

/-! ## do_fork -/

theorem copyMmAlloc (flags : BitVec 32) (p : ℕ) (mem : ForkMem) :
    Moves SameKin (copyMmAlloc flags p mem) := by
  refine .bind .get fun s ↦ ?_
  cases (s.proc s.current).mm with
  | none => exact .pure _
  | some oldmm =>
    refine .ite (fun _ ↦ .bind (.modify fun s ↦ goodMm s p oldmm) fun _ ↦ .pure _) fun _ ↦ ?_
    refine .bind (.modify fun s ↦ setMem s _) fun _ ↦ ?_
    cases mem.mm.addr with
    | none => exact .fail _
    | some m =>
      cases mem.pgdir with
      | none => exact .fail _
      | some pgdir =>
        exact .bind (.modify fun s ↦ (setMem s _).trans (setMem _ _)) fun _ ↦ .pure _

theorem dupMmap (m : ℕ) (mem : ForkMem) : Moves SameKin (dupMmap m mem) :=
  .modify fun s ↦ (setMem s _).trans (setMem _ _)

theorem copyMmGood (p m : ℕ) (mem : ForkMem) : Moves SameKin (copyMmGood p m mem) :=
  .ite (fun _ ↦ .modify fun s ↦ goodMm s p m) fun _ ↦
    .bind (.modify fun s ↦ mmFree s m) fun _ ↦ .fail _

theorem copyMm (flags : BitVec 32) (p : ℕ) (mem : ForkMem) :
    Moves SameKin (copyMm flags p mem) := by
  refine .bind (copyMmAlloc flags p mem) fun r ↦ ?_
  cases r with
  | done => exact .pure _
  | dup m => exact .bind (dupMmap m mem) fun _ ↦ copyMmGood p m mem

theorem growArena (s : Kernel) (k : Kmalloc) : SameKin s (s.growArena k) := setMem s _

theorem filesCreate (s : Kernel) (f page : ℕ) : SameKin s (s.filesCreate f page) :=
  (setMem s _).trans (setMem _ _)

theorem dupFiles (s : Kernel) (f g : ℕ) : SameKin s (s.dupFiles f g) := setFiles s f _

theorem goodFiles (p f : ℕ) : Moves SameKin (goodFiles p f) := by
  refine .modify fun s ↦ ?_
  refine (setFiles s f fun files ↦ { files with count := files.count + 1 }).trans ?_
  exact setProc _ p (fun _ ↦ rfl) (fun _ ↦ rfl) (fun _ ↦ rfl) (fun _ ↦ rfl) (fun _ ↦ rfl) id .inl

/-- `copy_files`, where it gets the memory it asks for. -/
theorem copyFiles {flags : BitVec 32} {mem : ForkMem}
    (hgood : flags &&& cloneFs ≠ 0 ∨ mem.files.addr ≠ none) (p : ℕ) (s : Kernel) :
    ((copyFiles flags p mem).run s).Sat (fun _ t ↦ SameKin s t) fun _ _ ↦ False := by
  rw [Ucore.copyFiles, get_bind_run]
  cases (s.proc s.current).filesp with
  | none => trivial
  | some old =>
    dsimp only
    split_ifs with hfs
    · exact sat_bind (R := fun _ t ↦ SameKin s t) (goodFiles p old s) fun _ _ ht ↦ ht
    · obtain ⟨f, hf⟩ := Option.ne_none_iff_exists'.mp (hgood.resolve_left hfs)
      rw [hf, modify_bind_run]
      dsimp only
      rw [modify_bind_run]
      refine sat_assert_bind fun _ ↦ ?_
      rw [modify_bind_run]
      have hsame := ((growArena s mem.files).trans (filesCreate _ f mem.filesPage)).trans
        (dupFiles _ f old)
      exact sat_bind (R := fun _ t ↦ SameKin s t) (hsame.trans (goodFiles p f _)) fun _ _ ht ↦ ht

/-! ## do_execve -/

theorem execArgs (mem : ExecMem) : Moves SameKin (execArgs mem) := by
  rw [Ucore.execArgs]
  cases mem.args with
  | error e => exact .fail e
  | ok _ =>
    refine .bind .get fun s ↦ ?_
    cases (s.proc s.current).filesp with
    | none => exact .halt
    | some f =>
      refine .bind (.assert _) fun _ ↦ .bind (.modify fun s ↦ push s fun i hi ↦ ?_) fun _ ↦ .pure _
      simp only [List.mem_append, List.mem_map, List.mem_cons, List.not_mem_nil, or_false] at hi
      rcases hi with ⟨_, -, rfl⟩ | rfl | rfl <;> trivial

theorem execPath (mem : ExecMem) : Moves SameKin (execPath mem) := by
  refine .bind (Moves.attempt (fdArrayAlloc none)) fun r ↦ ?_
  cases r with
  | error e =>
    exact .bind (.modify fun s ↦ push s (by simp [doExit, Section.Quiet])) fun _ ↦ .pure _
  | ok a => exact .bind (.modify fun s ↦ push s (by simp [Section.Quiet])) fun _ ↦ .pure _

theorem execOpen (f fd : ℕ) (mem : ExecMem) : Moves SameKin (execOpen f fd mem) := by
  rw [Ucore.execOpen]
  cases mem.opened with
  | error e =>
    exact .bind (fdArrayFree f fd) fun _ ↦
      .bind (.modify fun s ↦ push s (by simp [doExit, Section.Quiet])) fun _ ↦ .pure _
  | ok node =>
    exact .bind (fdArrayOpen f fd node) fun _ ↦ .bind dropMm fun _ ↦
      .bind (.modify fun s ↦ push s (by simp [Section.Quiet])) fun _ ↦ .pure _

theorem execLoad (fd : ℕ) (mem : ExecMem) : Moves SameKin (execLoad fd mem) := by
  refine .bind .get fun s ↦ .bind (.assert _) fun _ ↦ .bind (.modify fun s ↦ setMem s _) fun _ ↦ ?_
  have hfail : Moves SameKin (do
      modify fun s ↦ s.push (doExit (-Errno.noMem.code))
      return [] : KProg (List Event)) :=
    .bind (.modify fun s ↦ push s (by simp [doExit, Section.Quiet])) fun _ ↦ .pure _
  cases mem.mm.addr with
  | none => exact hfail
  | some m =>
    cases mem.pgdir with
    | none => exact hfail
    | some pgdir =>
      refine .bind (.modify fun s ↦ ?_) fun _ ↦ .pure _
      refine ((setMem s _).trans (setMem _ _)).trans (push _ ?_)
      split_ifs <;> simp [Section.Quiet]

theorem execInstall (m : ℕ) (mem : ExecMem) : Moves SameKin (execInstall m mem) := by
  refine .bind (.modify fun s ↦ (setMem s _).trans (setMem _ _)) fun _ ↦ ?_
  cases mem.load with
  | ok _ => exact .bind (.modify fun s ↦ goodMm s s.current m) fun _ ↦ .pure _
  | error e =>
    refine .bind (.modify fun s ↦ ?_) fun _ ↦ .pure _
    exact (mmFree s m).trans (push _ (by simp [doExit, Section.Quiet]))

/-- What a section does that leaves the tree alone, and nothing fails half-way. -/
theorem exec {i : Section} (hi : i.Kinless) (hC : ForksPublish s i) :
    (i.exec.run t).Sat (fun _ u ↦ SameKin t u) fun _ u ↦ SameKin t u := by
  suffices hmoves : (∀ flags p mem, i ≠ .forkFiles flags p mem) → Moves SameKin i.exec by
    cases i with
    | forkFiles flags p mem =>
      exact forkFiles_sat (copyFiles hC p t)
    | _ => exact hmoves (by simp) t
  intro hne
  cases i with
  | up k => exact up k
  | down k => exact down k
  | downRet k => exact downRet k
  | tryDown k => exact tryDown k
  | locks => exact .pure _
  | sleep time => exact doSleep time
  | sleepRet => exact sleepRet
  | waitRet pid => exact waitRet pid
  | kill pid => exact doKill pid
  | setPriority priority => exact setPriority priority
  | forkWake flags p mem =>
    refine .bind (wakeupProc p) fun _ ↦ .bind (.modify fun u ↦ push u ?_) fun _ ↦ .pure _
    simp [Section.Quiet]
  | forkFiles flags p mem => exact absurd rfl (hne flags p mem)
  | execArgs mem => exact execArgs mem
  | closeallFd f fd => exact closeallFd f fd
  | execPath mem => exact execPath mem
  | execOpen f fd mem => exact execOpen f fd mem
  | execLoad fd mem => exact execLoad fd mem
  | reads fd => exact .pure _
  | execInstall m mem => exact execInstall m mem
  | exitFiles => exact putFiles
  | destroyFd f fd => exact destroyFd f fd
  | closeFd f fd => exact fdArrayClose f fd
  | freeFd f fd => exact .bind (fdArrayFree f fd) fun _ ↦ .pure _
  | noneFd f fd => exact noneFd f fd
  | freeFiles f =>
    exact .bind (.modify fun u ↦ (setMem u _).trans (setMem _ _)) fun _ ↦ .pure _
  | fileOpen result => exact fileOpen result
  | openedFd f fd result => exact openedFd f fd result
  | fileUse fd => exact fileUse fd
  | releaseFd f fd => exact fdArrayRelease f fd
  | fileClose fd => exact fileClose fd
  | fileDup fd1 fd2 => exact fileDup fd1 fd2
  | _ => exact absurd hi id

end SameKin

end Ucore
