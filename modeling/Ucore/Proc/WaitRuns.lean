import Ucore.Proc.Numbers

/-!
# No wakeup of do_wait is lost

`do_wait` looks at the children, sets the state and then the wait flag, and gives the processor
away; `do_exit` sets the state, and wakes the parent later. In every state of every run, a process
that sleeps in `do_wait` has no zombie among the children that it waits for, but for a child that is
about to wake it. The main result is `doWait_wakes`.
-/

namespace Ucore

open Prog

namespace Kernel

variable {s t u : Kernel} {p c pid : ℕ}

/-- A process is in `do_wait` with the argument `pid`. -/
def WaitsFor (s : Kernel) (p pid : ℕ) : Prop :=
  .waitSleep pid ∈ s.code p ∨ .waitRet pid ∈ s.code p

/-- A process sleeps in `do_wait` in spite of a child that has exited. -/
structure Missed (s : Kernel) (p pid c : ℕ) : Prop where
  waits : s.WaitsFor p pid
  sleeping : (s.proc p).state = .sleeping
  listed : c ∈ s.procList
  parent : (s.proc c).parent = some p
  number : pid = 0 ∨ (s.proc c).pid = pid
  zombie : (s.proc c).state = .zombie

/-- Who misses a child will be told by it. -/
def Heard (s : Kernel) : Prop := ∀ p pid c, s.Missed p pid c → s.code c = telling

/-- Nobody misses a child, and the running process is not in `do_wait`. -/
structure NoMiss (s : Kernel) : Prop where
  missed : ∀ p pid c, ¬s.Missed p pid c
  awake : ∀ pid, ¬s.WaitsFor s.current pid

/-! ## Sections that leave the tree alone -/

theorem WaitsFor.of_kin (h : t.WaitsFor p pid) (hsame : SameKin s t) : s.WaitsFor p pid :=
  h.imp (hsame.marked p _ trivial) (hsame.marked p _ trivial)

/-- It was so before, unless the running process has gone to sleep. -/
theorem Missed.of_kin (h : t.Missed p pid c) (hsame : SameKin s t)
    (hp : p = s.current → (s.proc p).state = .sleeping) : s.Missed p pid c where
  waits := h.waits.of_kin hsame
  sleeping := (hsame.asleep p h.sleeping).elim id hp
  listed := hsame.procList ▸ h.listed
  parent := (hsame.parent c).symm.trans h.parent
  number := h.number.imp_right (hsame.pid c).symm.trans
  zombie := hsame.zombie c h.zombie

theorem NoMiss.congr (h : s.NoMiss) (hsame : SameKin s t) : t.NoMiss where
  missed p pid c hm := by
    refine h.missed p pid c (hm.of_kin hsame fun hp ↦ ?_)
    have hwaits := hm.waits.of_kin hsame
    rw [hp] at hwaits
    exact absurd hwaits (h.awake pid)
  awake pid hw := by
    rw [hsame.current] at hw
    exact h.awake pid (hw.of_kin hsame)

theorem WaitsFor.of_push {l : List Section} (h : (s.push l).WaitsFor p pid)
    (hl : ∀ pid, .waitSleep pid ∉ l ∧ .waitRet pid ∉ l) : s.WaitsFor p pid :=
  h.imp (fun hp ↦ (mem_push hp).resolve_left fun hc ↦ (hl pid).1 hc.1)
    fun hp ↦ (mem_push hp).resolve_left fun hc ↦ (hl pid).2 hc.1

theorem NoMiss.push (h : s.NoMiss) {l : List Section}
    (hl : ∀ pid, .waitSleep pid ∉ l ∧ .waitRet pid ∉ l) : (s.push l).NoMiss where
  missed p pid c hm := h.missed p pid c
    ⟨hm.waits.of_push hl, hm.sleeping, hm.listed, hm.parent, hm.number, hm.zombie⟩
  awake pid hw := h.awake pid (hw.of_push hl)

theorem NoMiss.heard (h : s.NoMiss) : s.Heard := fun p pid c hm ↦ absurd hm (h.missed p pid c)

/-! ## Processes that sleep on -/

/-- Who sleeps has slept before, for the same reason. -/
def StillAsleep (s t : Kernel) : Prop := ∀ q, (t.proc q).state = .sleeping →
  (s.proc q).state = .sleeping ∧ (t.proc q).waitState = (s.proc q).waitState

namespace StillAsleep

theorem refl (s : Kernel) : StillAsleep s s := fun _ hq ↦ ⟨hq, rfl⟩

theorem trans (h : StillAsleep s t) (h' : StillAsleep t u) : StillAsleep s u := fun q hq ↦ by
  obtain ⟨hst, hw⟩ := h' q hq
  obtain ⟨hst', hw'⟩ := h q hst
  exact ⟨hst', hw.trans hw'⟩

instance : Std.Refl StillAsleep := ⟨refl⟩

instance : IsTrans Kernel StillAsleep := ⟨fun _ _ _ ↦ trans⟩

theorem of_eq (h : ∀ q, (t.proc q).state = (s.proc q).state)
    (hw : ∀ q, (t.proc q).waitState = (s.proc q).waitState) : StillAsleep s t :=
  fun q hq ↦ ⟨(h q).symm.trans hq, hw q⟩

theorem setProc (s : Kernel) (p : ℕ) {f : Proc → Proc} (hf : ∀ q, (f q).state = q.state)
    (hw : ∀ q, (f q).waitState = q.waitState) : StillAsleep s (s.setProc p f) :=
  of_eq (s.setProc_field (g := Proc.state) p hf) (s.setProc_field (g := Proc.waitState) p hw)

theorem schedClassEnqueue (s : Kernel) (p : ℕ) : StillAsleep s (s.schedClassEnqueue p) := by
  rw [Kernel.schedClassEnqueue]
  split_ifs
  · exact refl s
  · exact setProc s p (f := fun q ↦ { q with
        timeSlice := if q.timeSlice = 0 ∨ Kernel.maxTimeSlice < q.timeSlice then Kernel.maxTimeSlice
          else q.timeSlice }) (fun _ ↦ rfl) fun _ ↦ rfl

theorem runnable (s : Kernel) (p : ℕ) :
    StillAsleep s (s.setProc p fun q ↦ { q with state := .runnable, waitState := 0 }) := by
  intro q hq
  rcases eq_or_ne q p with rfl | hne
  · rw [Kernel.setProc_self] at hq
    cases hq
  · rw [Kernel.setProc_of_ne s hne] at hq ⊢
    exact ⟨hq, rfl⟩

theorem wakeupProc (p : ℕ) : Moves StillAsleep (wakeupProc p) := by
  refine .bind .get fun s ↦ .bind (.assert _) fun _ ↦ .ite (fun _ ↦ ?_) fun _ ↦ .pure ()
  refine .bind (.modify fun s ↦ runnable s p) fun _ ↦ .ite (fun _ ↦ .modify fun s ↦ ?_) fun _ ↦
    .pure ()
  exact schedClassEnqueue s p

theorem wakeupIf (c : Prop) [Decidable c] (p : ℕ) : Moves StillAsleep (wakeupIf c p) :=
  .ite (fun _ ↦ wakeupProc p) fun _ ↦ .pure ()

theorem wakeupTimers (l : List Timer) : Moves StillAsleep (wakeupTimers l) := by
  induction l with
  | nil => exact .pure ()
  | cons timer l ih =>
    rw [Ucore.wakeupTimers]
    cases timer.proc with
    | none => exact .halt
    | some p =>
      exact .bind .get fun _ ↦ .bind (.assert _) fun _ ↦ .bind (wakeupProc p) fun _ ↦ ih

theorem timerInterrupt : Moves StillAsleep timerInterrupt := by
  refine .bind ?_ fun l ↦ .bind (wakeupTimers l) fun _ ↦ .modify fun s ↦ ?_
  · rw [onTimers]
    refine .zoom (fun list s ↦ ?_) _
    exact of_eq (t := { s with timers := list }) (fun _ ↦ rfl) fun _ ↦ rfl
  · rw [schedClassProcTick]
    split_ifs
    · exact setProc s s.current (fun _ ↦ rfl) fun _ ↦ rfl
    · exact setProc s s.current (fun _ ↦ rfl) fun _ ↦ rfl

theorem schedule (s : Kernel) : StillAsleep s s.schedule := by
  have hset : StillAsleep s (s.setProc s.current fun q ↦ { q with needResched := false }) :=
    setProc s s.current (fun _ ↦ rfl) fun _ ↦ rfl
  have hreq : StillAsleep s s.requeue := by
    rw [requeue]
    split_ifs
    · exact hset.trans (schedClassEnqueue _ _)
    · exact hset
  rw [Kernel.schedule, Kernel.switch]
  cases s.requeue.rq.pool.root with
  | none => exact hreq
  | some next =>
    have hnext := setProc s.requeue next
      (f := fun q ↦ { q with stride := q.stride + strideStep q.priority }) (fun _ ↦ rfl) fun _ ↦ rfl
    exact hreq.trans hnext

theorem handOver (s : Kernel) (p : ℕ) : StillAsleep s (s.handOver p) :=
  of_eq (handOver_field (g := Proc.state) (fun _ _ ↦ rfl) (fun _ _ ↦ rfl) (fun _ _ ↦ rfl)
    (fun _ _ ↦ rfl) s p) (handOver_field (g := Proc.waitState) (fun _ _ ↦ rfl) (fun _ _ ↦ rfl)
      (fun _ _ ↦ rfl) (fun _ _ ↦ rfl) s p)

theorem reparent (p : ℕ) : Moves StillAsleep (Ucore.reparent p) := by
  intro s
  rw [run_reparent]
  exact (wakeupIf _ _ (s.handOver p)).imp (fun _ _ hs ↦ (handOver s p).trans hs)
    fun _ _ hs ↦ (handOver s p).trans hs

theorem reparentLoop (fuel : ℕ) : Moves StillAsleep (Ucore.reparentLoop fuel) := by
  induction fuel with
  | zero => exact .pure ()
  | succ fuel ih =>
    rw [Ucore.reparentLoop]
    refine .bind .get fun s ↦ ?_
    cases (s.proc s.current).cptr with
    | none => exact .pure ()
    | some p => exact .bind (reparent p) fun _ ↦ ih

end StillAsleep

/-- A process that is woken does not sleep. -/
theorem wakeupIf_awake {c : Prop} [Decidable c] (hc : c) (p : ℕ) (s : Kernel) :
    ((wakeupIf c p).run s).Sat (fun _ t ↦ (t.proc p).state ≠ .sleeping) fun _ _ ↦ True := by
  rw [wakeupIf, if_pos hc]
  by_cases hz : (s.proc p).state = .zombie
  · rw [wakeupProc, get_bind_run, assert_bind_run_neg (not_not.mpr hz)]
    trivial
  · rw [run_wakeupProc hz]
    change (Kernel.proc (if (s.proc p).state ≠ .runnable then s.wakeup p else s) p).state ≠ _
    split_ifs with hrun
    · intro hsleep
      have hstill := StillAsleep.schedClassEnqueue
        (s.setProc p fun q ↦ { q with state := .runnable, waitState := 0 }) p
      have hself : Proc.state ((s.setProc p fun q ↦
          { q with state := .runnable, waitState := 0 }).proc p) = .runnable := by rw [setProc_self]
      rw [wakeup] at hsleep
      split_ifs at hsleep
      · rw [(hstill p hsleep).1] at hself
        cases hself
      · rw [hself] at hsleep
        cases hsleep
    · rw [not_not.mp hrun]
      exact ProcState.noConfusion

/-! ## do_fork -/

theorem NoMiss.kfreeProc (h : s.NoMiss) (p : ℕ) : (s.kfreeProc p).NoMiss where
  missed q pid c hm := h.missed q pid c
    ⟨hm.waits, hm.sleeping, hm.listed, hm.parent, hm.number, hm.zombie⟩
  awake := h.awake

theorem NoMiss.cleanup (h : s.NoMiss) (p : ℕ) :
    ((badForkCleanupKstack p).run s).Sat (fun _ t ↦ t.NoMiss) fun _ _ ↦ False :=
  (h.kfreeProc p).congr (SameKin.putKstack s p)

theorem NoMiss.embryo (h : s.NoMiss) (hl : p ∉ s.procList) (hp : p ≠ s.current) :
    (s.embryo p).NoMiss where
  missed q pid c hm := by
    have hc : c ≠ p := by
      rintro rfl
      exact hl hm.listed
    have hq : q ≠ p := by
      rintro rfl
      have hwaits := hm.waits
      rw [WaitsFor, embryo_code_self] at hwaits
      exact hwaits.elim List.not_mem_nil List.not_mem_nil
    have hwaits := hm.waits
    have hsleep := hm.sleeping
    have hpar := hm.parent
    have hnum := hm.number
    have hz := hm.zombie
    rw [WaitsFor, embryo_code_of_ne s hq] at hwaits
    rw [embryo_proc_of_ne s hq] at hsleep
    rw [embryo_proc_of_ne s hc] at hpar hnum hz
    exact h.missed q pid c ⟨hwaits, hsleep, hm.listed, hpar, hnum, hz⟩
  awake pid hw := by
    refine h.awake pid ?_
    rw [WaitsFor] at hw
    change .waitSleep pid ∈ (s.embryo p).code s.current ∨
      .waitRet pid ∈ (s.embryo p).code s.current at hw
    rw [embryo_code_of_ne s hp.symm] at hw
    exact hw

theorem NoMiss.forkBegin (h : s.NoMiss) (flags : BitVec 32) (mem : ForkMem)
    (hfresh : ∀ p, mem.proc.addr = some p → p ∉ s.procList ∧ p ≠ s.current) :
    ((Ucore.forkBegin flags mem).run s).Sat (fun _ t ↦ t.NoMiss) fun _ t ↦ t.NoMiss := by
  have hembryo : ∀ p u, mem.proc.addr = some p → SameKin s u → (u.embryo p).NoMiss := by
    intro p u hp hsame
    obtain ⟨hl, hne⟩ := hfresh p hp
    refine (h.congr hsame).embryo ?_ ?_
    · rw [hsame.procList]
      exact hl
    · rw [hsame.current]
      exact hne
  rw [Ucore.forkBegin]
  refine sat_bind (R := fun _ t ↦ t.NoMiss) ((forkAlloc_kin mem s).imp (fun p t ht ↦ ?_)
    fun _ t ht ↦ ?_) fun p t ht ↦ ?_
  · obtain ⟨hp, -, u, hsame, -, hsame', -⟩ := ht
    exact (hembryo p u hp hsame).congr hsame'
  · rcases ht with hsame | ⟨p, u, hp, -, hsame, -, hsame'⟩
    · exact h.congr hsame
    · exact ((hembryo p u hp hsame).kfreeProc p).congr hsame'
  · have hcopy := (SameKin.copyMmAlloc flags p mem t).imp (fun _ _ hu ↦ ht.congr hu)
      fun _ _ hu ↦ ht.congr hu
    refine sat_bind (R := fun _ u ↦ u.NoMiss) (sat_onError hcopy fun _ u hu ↦ ?_) fun c u hu ↦ ?_
    · exact (hu.cleanup p).imp (fun _ _ hs ↦ hs) fun _ _ hf ↦ hf.elim
    · cases c with
      | done => exact hu.push (by simp)
      | dup m => exact hu.push (by simp)

/-- The new process is no zombie. -/
theorem NoMiss.forkLink (h : s.NoMiss) (hz : (s.proc p).state ≠ .zombie) :
    ((Ucore.forkLink p).run s).Sat (fun _ t ↦ t.NoMiss) fun _ _ ↦ False := by
  rw [Ucore.forkLink, get_bind_run]
  cases getPid (2 * maxPid) ⟨s.lastPid, s.nextSafe, s.procList.map fun q ↦ (s.proc q).pid⟩ with
  | none => trivial
  | some r =>
    cases (s.proc p).parent with
    | none => trivial
    | some q =>
      set v := { s with lastPid := r.lastPid, nextSafe := r.nextSafe }.setProc p fun q ↦
        { q with pid := r.lastPid } with hv
      set t := (v.hashProc p).setLinks p q with ht
      obtain ⟨f, hf⟩ := (v.hashProc p).setLinks_eq p q
      have hcode : t.code = s.code := by rw [ht, hf]; rfl
      have hcur : t.current = s.current := by rw [ht, hf]; rfl
      have hlist : t.procList = p :: s.procList := by rw [ht, hf]; rfl
      have hstate : ∀ x, (t.proc x).state = (s.proc x).state := fun x ↦
        ((v.hashProc p).setLinks_field (g := Proc.state) p q (fun _ _ ↦ rfl) (fun _ _ ↦ rfl)
          (fun _ _ ↦ rfl) x).trans (Kernel.setProc_field _ (g := Proc.state) p
            (f := fun q ↦ { q with pid := r.lastPid }) (fun _ ↦ rfl) x)
      have hpar : ∀ x, (t.proc x).parent = (s.proc x).parent := fun x ↦
        ((v.hashProc p).setLinks_field (g := Proc.parent) p q (fun _ _ ↦ rfl) (fun _ _ ↦ rfl)
          (fun _ _ ↦ rfl) x).trans (Kernel.setProc_field _ (g := Proc.parent) p
            (f := fun q ↦ { q with pid := r.lastPid }) (fun _ ↦ rfl) x)
      have hpid : ∀ x, x ≠ p → (t.proc x).pid = (s.proc x).pid := fun x hx ↦ by
        refine ((v.hashProc p).setLinks_field (g := Proc.pid) p q (fun _ _ ↦ rfl) (fun _ _ ↦ rfl)
          (fun _ _ ↦ rfl) x).trans ?_
        change (v.proc x).pid = _
        rw [hv, setProc_of_ne _ hx]
      have hkept : t.NoMiss := by
        refine ⟨fun x pid c hm ↦ ?_, fun pid hw ↦ ?_⟩
        · have hne : c ≠ p := by
            rintro rfl
            exact hz ((hstate c).symm.trans hm.zombie)
          have hlisted := hm.listed
          rw [hlist] at hlisted
          refine h.missed x pid c ⟨?_, (hstate x).symm.trans hm.sleeping,
            (List.mem_cons.mp hlisted).resolve_left hne, (hpar c).symm.trans hm.parent,
            hm.number.imp_right (hpid c hne).symm.trans, (hstate c).symm.trans hm.zombie⟩
          have hwaits := hm.waits
          rwa [WaitsFor, hcode] at hwaits
        · rw [WaitsFor, hcode, hcur] at hw
          exact h.awake pid hw
      exact hkept

/-! ## do_wait -/

theorem NoMiss.reap (h : s.NoMiss) (c : ℕ) :
    (((s.unhashProc c).removeLinks c).kfreeProc c).NoMiss := by
  obtain ⟨f, hf⟩ := (s.unhashProc c).removeLinks_run c
  set t := (s.unhashProc c).removeLinks c with ht
  have hfield : ∀ {α : Type} {g : Proc → α}, (∀ r v, g { r with yptr := v } = g r) →
      (∀ r v, g { r with optr := v } = g r) → (∀ r v, g { r with cptr := v } = g r) →
      ∀ x, g (t.proc x) = g (s.proc x) := fun hy ho hc x ↦
    (s.unhashProc c).unlink_field hy ho hc c x
  have hstate := hfield (g := Proc.state) (fun _ _ ↦ rfl) (fun _ _ ↦ rfl) fun _ _ ↦ rfl
  have hpar := hfield (g := Proc.parent) (fun _ _ ↦ rfl) (fun _ _ ↦ rfl) fun _ _ ↦ rfl
  have hpid := hfield (g := Proc.pid) (fun _ _ ↦ rfl) (fun _ _ ↦ rfl) fun _ _ ↦ rfl
  have hcode : t.code = s.code := by rw [hf]; rfl
  have hcur : t.current = s.current := by rw [hf]; rfl
  have hlist : t.procList = s.procList.erase c := by rw [hf]; rfl
  refine NoMiss.kfreeProc ⟨fun x pid d hm ↦ ?_, fun pid hw ↦ ?_⟩ c
  · have hlisted := hm.listed
    have hwaits := hm.waits
    rw [hlist] at hlisted
    rw [WaitsFor, hcode] at hwaits
    exact h.missed x pid d
      ⟨hwaits, (hstate x).symm.trans hm.sleeping, List.mem_of_mem_erase hlisted,
        (hpar d).symm.trans hm.parent, hm.number.imp_right (hpid d).symm.trans,
        (hstate d).symm.trans hm.zombie⟩
  · rw [WaitsFor, hcode, hcur] at hw
    exact h.awake pid hw

/-- The running process has found children, and no zombie among them. -/
theorem NoMiss.waiting (h : s.NoMiss) (hnone : ∀ c, s.Awaits pid c → (s.proc c).state ≠ .zombie) :
    ((s.setProc s.current fun q ↦ { q with state := .sleeping }).push [.waitSleep pid]).Heard := by
  intro q pid' c hm
  exfalso
  have hz := hm.zombie
  have hpar := hm.parent
  have hnum := hm.number
  change ((s.setProc s.current fun q ↦ { q with state := .sleeping }).proc c).state = _ at hz
  change ((s.setProc s.current fun q ↦ { q with state := .sleeping }).proc c).parent = _ at hpar
  change pid' = 0 ∨ ((s.setProc s.current fun q ↦ { q with state := .sleeping }).proc c).pid = _
    at hnum
  have hc : c ≠ s.current := by
    rintro rfl
    rw [setProc_self] at hz
    cases hz
  rw [setProc_of_ne s hc] at hz hpar hnum
  by_cases hq : q = s.current
  · -- it waits for nothing else yet
    rw [hq] at hpar
    obtain hpid | hw : pid' = pid ∨ s.WaitsFor q pid' := by
      rcases hm.waits with hw | hw
      · rcases mem_push hw with hl | hl
        · exact .inl (Section.waitSleep.inj (List.mem_singleton.mp hl.1))
        · exact .inr (.inl hl)
      · rcases mem_push hw with hl | hl
        · cases List.mem_singleton.mp hl.1
        · exact .inr (.inr hl)
    · rw [hpid] at hnum
      exact hnone c ⟨hm.listed, hpar, hnum⟩ hz
    · rw [hq] at hw
      exact h.awake pid' hw
  · have hsleep := hm.sleeping
    change ((s.setProc s.current fun q ↦ { q with state := .sleeping }).proc q).state = _ at hsleep
    rw [setProc_of_ne s hq] at hsleep
    refine h.missed q pid' c ⟨hm.waits.imp (fun hw ↦ ?_) fun hw ↦ ?_, hsleep, hm.listed, hpar, hnum,
      hz⟩
    · exact (mem_push hw).resolve_left fun hl ↦ hq hl.2
    · exact (mem_push hw).resolve_left fun hl ↦ hq hl.2

/-- The wait flag is set. -/
theorem Missed.of_waitSleep {q pid' : ℕ} {rest : List Section}
    (hcode : s.code s.current = .waitSleep pid :: rest)
    (hm : (((s.setCode s.current rest).setProc s.current fun q ↦
      { q with waitState := wtChild }).push [.schedule, .waitRet pid]).Missed q pid' c) :
    s.Missed q pid' c := by
  have hfield : ∀ {α : Type} {g : Proc → α}, (∀ r, g { r with waitState := wtChild } = g r) →
      ∀ x, g (((s.setCode s.current rest).setProc s.current fun q ↦
        { q with waitState := wtChild }).proc x) = g (s.proc x) := fun hg x ↦
    (s.setCode s.current rest).setProc_field s.current (f := fun q ↦
      { q with waitState := wtChild }) hg x
  have hstate := hfield (g := Proc.state) fun _ ↦ rfl
  have hpar := hfield (g := Proc.parent) fun _ ↦ rfl
  have hpid := hfield (g := Proc.pid) fun _ ↦ rfl
  have hmem : ∀ j : Section, j ∈ (s.setCode s.current rest).code q → j ∈ s.code q := by
    intro j hj
    rcases eq_or_ne q s.current with rfl | hq
    · rw [setCode_self] at hj
      rw [hcode]
      exact List.mem_cons_of_mem _ hj
    · rwa [setCode_of_ne s hq] at hj
  refine ⟨?_, (hstate q).symm.trans hm.sleeping, hm.listed, (hpar c).symm.trans hm.parent,
    hm.number.imp_right (hpid c).symm.trans, (hstate c).symm.trans hm.zombie⟩
  rcases hm.waits with hw | hw
  · rcases mem_push hw with hl | hl
    · simp at hl
    · exact .inl (hmem _ hl)
  · rcases mem_push hw with hl | hl
    · obtain ⟨hl, hq⟩ := hl
      obtain rfl : pid' = pid := by simpa using hl
      refine .inl ?_
      rw [hq]
      change .waitSleep pid' ∈ s.code s.current
      rw [hcode]
      exact List.mem_cons_self
    · exact .inr (hmem _ hl)

/-! ## do_exit -/

/-- A process becomes a zombie, and will tell its parent. -/
theorem NoMiss.exitZombie (h : s.NoMiss) (hnil : s.code s.current = []) (code : ℤ) :
    ((s.setProc s.current fun q ↦ { q with state := .zombie, exitCode := code }).push
      telling).Heard := by
  intro q pid c hm
  by_cases hc : c = s.current
  · rw [hc]
    change ((s.setProc s.current fun q ↦ { q with state := .zombie, exitCode := code }).setCode
      s.current (telling ++ s.code s.current)).code s.current = telling
    rw [setCode_self, hnil, List.append_nil]
  · exfalso
    have hq : q ≠ s.current := by
      rintro rfl
      have hsleep := hm.sleeping
      change ((s.setProc s.current fun q ↦
        { q with state := .zombie, exitCode := code }).proc s.current).state = _ at hsleep
      rw [setProc_self] at hsleep
      cases hsleep
    have hproc : ∀ x, x ≠ s.current → ((s.setProc s.current fun q ↦
        { q with state := .zombie, exitCode := code }).push telling).proc x = s.proc x :=
      fun x hx ↦ setProc_of_ne s hx fun q ↦ { q with state := .zombie, exitCode := code }
    have hsleep := hm.sleeping
    have hpar := hm.parent
    have hnum := hm.number
    have hz := hm.zombie
    rw [hproc q hq] at hsleep
    rw [hproc c hc] at hpar hnum hz
    refine h.missed q pid c ⟨hm.waits.imp (fun hw ↦ ?_) fun hw ↦ ?_, hsleep, hm.listed, hpar, hnum,
      hz⟩
    · exact (mem_push hw).resolve_left fun hl ↦ hq hl.2
    · exact (mem_push hw).resolve_left fun hl ↦ hq hl.2

/-- Who sleeps in `do_wait` has set its wait flag. -/
def Flagged (s : Kernel) : Prop := ∀ p pid, s.WaitsFor p pid → (s.proc p).state = .sleeping →
  (s.proc p).waitState = wtChild

theorem Flagged.congr (h : s.Flagged) (hsame : SameKin s t) (hstill : StillAsleep s t) :
    t.Flagged := by
  intro p pid hw hs
  obtain ⟨hs', heq⟩ := hstill p hs
  rw [heq]
  exact h p pid (hw.of_kin hsame) hs'

theorem Missed.still (h : t.Missed p pid c) (hsame : SameKin s t) (hstill : StillAsleep s t) :
    s.Missed p pid c := h.of_kin hsame fun _ ↦ (hstill p h.sleeping).1

/-- A zombie that gets `initproc` for its parent is noticed. -/
theorem NoMiss.reparent (h : s.NoMiss) (hf : s.Flagged) (p : ℕ) :
    ((Ucore.reparent p).run s).Sat (fun _ t ↦ t.NoMiss ∧ t.Flagged) fun _ _ ↦ False := by
  obtain ⟨f, heq⟩ := s.handOver_eq p
  set u := s.handOver p with hu
  have hcode : u.code = s.code := by rw [heq]
  have hcur : u.current = s.current := by rw [heq]
  have hlist : u.procList = s.procList := by rw [heq]
  have hstate : ∀ x, (u.proc x).state = (s.proc x).state :=
    handOver_field (g := Proc.state) (fun _ _ ↦ rfl) (fun _ _ ↦ rfl) (fun _ _ ↦ rfl)
      (fun _ _ ↦ rfl) s p
  have hpid : ∀ x, (u.proc x).pid = (s.proc x).pid :=
    handOver_field (g := Proc.pid) (fun _ _ ↦ rfl) (fun _ _ ↦ rfl) (fun _ _ ↦ rfl)
      (fun _ _ ↦ rfl) s p
  have hwaits : ∀ {q pid}, u.WaitsFor q pid → s.WaitsFor q pid := by
    intro q pid hw
    rwa [WaitsFor, hcode] at hw
  have hover := StillAsleep.handOver s p
  rw [run_reparent, ← hu]
  have hkin := SameKin.wakeupIf_sat ((s.proc p).state = .zombie ∧
    (s.proc s.initproc).waitState = wtChild) s.initproc u
  have hstill := StillAsleep.wakeupIf ((s.proc p).state = .zombie ∧
    (s.proc s.initproc).waitState = wtChild) s.initproc u
  have hawake := fun hc ↦ wakeupIf_awake (c := (s.proc p).state = .zombie ∧
    (s.proc s.initproc).waitState = wtChild) hc s.initproc u
  cases hwake : (wakeupIf ((s.proc p).state = .zombie ∧
      (s.proc s.initproc).waitState = wtChild) s.initproc).run u with
  | ok a t =>
    rw [hwake] at hkin hstill hawake
    change SameKin u t at hkin
    change StillAsleep u t at hstill
    refine ⟨⟨fun q pid c hm ↦ ?_, fun pid hw ↦ ?_⟩, fun q pid hw hs ↦ ?_⟩
    · have hb := hm.still hkin hstill
      have hsleep := (hstate q).symm.trans hb.sleeping
      have hpar := hb.parent
      rw [hu, handOver_parent] at hpar
      -- the only new child is `p`; if it is a zombie, `initproc` is woken when it waits
      by_cases hc : c = p
      · rw [if_pos hc] at hpar
        obtain rfl := Option.some.inj hpar
        refine hawake ⟨?_, hf _ pid (hwaits hb.waits) hsleep⟩ hm.sleeping
        rw [← hc, ← hstate]
        exact hb.zombie
      · rw [if_neg hc] at hpar
        exact h.missed q pid c ⟨hwaits hb.waits, hsleep, hlist ▸ hb.listed, hpar,
          hb.number.imp_right (hpid c).symm.trans, (hstate c).symm.trans hb.zombie⟩
    · rw [hkin.current, hcur] at hw
      exact h.awake pid (hwaits (hw.of_kin hkin))
    · obtain ⟨hs', heq'⟩ := hstill q hs
      obtain ⟨hs'', heq''⟩ := hover q hs'
      rw [heq', heq'']
      exact hf q pid (hwaits (hw.of_kin hkin)) hs''
  | error e t =>
    rw [hwake] at hkin
    exact hkin
  | panic => trivial

theorem NoMiss.reparentLoop {fuel : ℕ} (h : s.NoMiss) (hf : s.Flagged) :
    ((Ucore.reparentLoop fuel).run s).Sat (fun _ t ↦ t.NoMiss) fun _ _ ↦ False := by
  induction fuel generalizing s with
  | zero => exact h
  | succ fuel ih =>
    rw [Ucore.reparentLoop, get_bind_run]
    cases (s.proc s.current).cptr with
    | none => exact h
    | some p => exact sat_bind (h.reparent hf p) fun _ t ht ↦ ih ht.1 ht.2

/-- The parent of the process that exits is woken. -/
theorem exitTell_noMiss (hm : ∀ q pid c, s.Missed q pid c → c = s.current) (hf : s.Flagged)
    (ha : ∀ pid, ¬s.WaitsFor s.current pid) :
    (Ucore.exitTell.run s).Sat (fun _ t ↦ t.NoMiss) fun _ _ ↦ False := by
  rw [Ucore.exitTell, get_bind_run]
  cases hpar : (s.proc s.current).parent with
  | none => trivial
  | some q =>
    dsimp only
    refine sat_bind (R := fun _ t ↦ t.NoMiss ∧ t.Flagged) ?_ fun _ t ht ↦
      sat_bind (ht.1.reparentLoop ht.2) fun _ u hu ↦ hu
    have hkin := SameKin.wakeupIf_sat ((s.proc q).waitState = wtChild) q s
    have hstill := StillAsleep.wakeupIf ((s.proc q).waitState = wtChild) q s
    have hawake := fun hc ↦ wakeupIf_awake (c := (s.proc q).waitState = wtChild) hc q s
    cases hrun : (wakeupIf ((s.proc q).waitState = wtChild) q).run s with
    | ok a t =>
      rw [hrun] at hkin hstill hawake
      change SameKin s t at hkin
      change StillAsleep s t at hstill
      refine ⟨⟨fun x pid c hmiss ↦ ?_, fun pid hw ↦ ?_⟩, hf.congr hkin hstill⟩
      · have hbefore := hmiss.still hkin hstill
        obtain rfl := hm x pid c hbefore
        obtain rfl := Option.some.inj (hpar.symm.trans hbefore.parent)
        exact hawake (hf q pid hbefore.waits hbefore.sleeping) hmiss.sleeping
      · rw [hkin.current] at hw
        exact ha pid (hw.of_kin hkin)
    | error e t =>
      rw [hrun] at hkin
      exact hkin
    | panic => trivial

/-! ## Every step -/

theorem plain_of_tidy {l : List Section} (hl : Tidy l) : ∀ j ∈ l, j.Plain := by
  induction hl with
  | nil => exact fun j hj ↦ absurd hj List.not_mem_nil
  | last hi =>
    intro j hj
    rw [List.mem_singleton.mp hj]
    exact hi
  | cons hi _ ih =>
    intro j hj
    rcases List.mem_cons.mp hj with rfl | hj
    · exact hi.plain
    · exact ih j hj

/-- Behind a section that runs there is no section of `do_wait` but behind `schedule`. -/
theorem RunOk.rest_not_waiting (h : s.RunOk) {i : Section} {rest : List Section}
    (hcode : s.code s.current = i :: rest) (hi : i ≠ .schedule) (pid : ℕ) :
    .waitSleep pid ∉ rest ∧ .waitRet pid ∉ rest := by
  have htidy : ∀ {l : List Section}, Tidy l → .waitSleep pid ∉ l ∧ .waitRet pid ∉ l :=
    fun hl ↦ ⟨fun hj ↦ plain_of_tidy hl _ hj, fun hj ↦ plain_of_tidy hl _ hj⟩
  have hshape := h.sched.shape s.current
  rw [hcode] at hshape
  generalize (s.proc s.current).state = st at hshape
  generalize (s.proc s.current).waitState = w at hshape
  cases hshape with
  | plain hl =>
    cases hl with
    | last _ => exact ⟨List.not_mem_nil, List.not_mem_nil⟩
    | cons _ hl => exact htidy hl
  | woken _ _ hl => exact htidy hl.tidy
  | early _ _ _ _ => exact absurd rfl hi
  | going _ _ _ => exact absurd rfl hi
  | drowsy _ => exact ⟨List.not_mem_nil, List.not_mem_nil⟩
  | asleep hc _ _ => exact absurd rfl hc
  | telling _ => simp
  | dying _ => exact absurd rfl hi
  | dead hc => exact absurd rfl hc

/-- Who sleeps in `do_wait` and is not on the processor has set the wait flag. -/
theorem RunOk.flagged (h : s.RunOk) (hp : p ≠ s.current) (hw : s.WaitsFor p pid)
    (hs : (s.proc p).state = .sleeping) : (s.proc p).waitState = wtChild := by
  have hshape := h.sched.shape p
  rw [WaitsFor] at hw
  rw [hs] at hshape
  generalize s.code p = l at hshape hw
  generalize (s.proc p).waitState = w at hshape ⊢
  cases hshape with
  | drowsy hc => exact absurd hc hp
  | going hc _ _ => exact absurd hc hp
  | asleep _ hr hl =>
    rcases hw with hw | hw
    · rcases List.mem_cons.mp hw with rfl | hw
      · cases hr
      · exact absurd (plain_of_tidy hl.tidy _ hw) id
    · rcases List.mem_cons.mp hw with rfl | hw
      · exact (Option.some.inj hr).symm
      · exact absurd (plain_of_tidy hl.tidy _ hw) id

theorem Missed.of_schedule (h : s.schedule.Missed p pid c) : s.Missed p pid c := by
  have hsleep := (StillAsleep.schedule s p h.sleeping).1
  obtain ⟨t, q, rq, hsame, heq⟩ := SameKin.schedule s
  rw [heq] at h
  have ht : t.Missed p pid c :=
    ⟨h.waits, h.sleeping, h.listed, h.parent, h.number, h.zombie⟩
  exact ht.of_kin hsame fun _ ↦ hsleep

/-- Every section keeps it so that nobody misses a child that does not tell. -/
theorem RunOk.exec_heard (h : s.RunOk) (ht : s.TreeKept) (hn : s.NumbersOk) (hh : s.Heard)
    {i : Section} {rest : List Section} (hcode : s.code s.current = i :: rest)
    (hC : ForksPublish s i) (hfresh : i.Fresh s) :
    (i.exec.run (s.setCode s.current rest)).Sat (fun _ t ↦ t.Heard) fun _ t ↦ t.Heard := by
  -- the section that is taken off is not one that makes a process wait
  have hback : ∀ q pid c, (s.setCode s.current rest).Missed q pid c → s.Missed q pid c := by
    intro q pid c hm
    refine ⟨?_, hm.sleeping, hm.listed, hm.parent, hm.number, hm.zombie⟩
    have hmem : ∀ j : Section, j ∈ (s.setCode s.current rest).code q → j ∈ s.code q := by
      intro j hj
      rcases eq_or_ne q s.current with rfl | hq
      · rw [setCode_self] at hj
        rw [hcode]
        exact List.mem_cons_of_mem i hj
      · rwa [setCode_of_ne s hq] at hj
    exact hm.waits.imp (hmem _) (hmem _)
  have hnone : i ≠ .exitTell → ∀ q pid c, ¬(s.setCode s.current rest).Missed q pid c :=
    fun hi q pid c hm ↦ h.not_telling hcode hi c (hh q pid c (hback q pid c hm))
  -- the current process does not sleep in `do_wait`
  have hawake : i ≠ .schedule → ∀ pid, ¬(s.setCode s.current rest).WaitsFor s.current pid := by
    intro hi pid hw
    rw [WaitsFor, setCode_self] at hw
    obtain ⟨h₁, h₂⟩ := h.rest_not_waiting hcode hi pid
    exact hw.elim h₁ h₂
  have hpop : i ≠ .exitTell → i ≠ .schedule → (s.setCode s.current rest).NoMiss :=
    fun hi hi' ↦ ⟨hnone hi, hawake hi'⟩
  by_cases hkin : i.Kinless
  · have hne : i ≠ .exitTell ∧ i ≠ .schedule := by
      constructor <;> rintro rfl <;> exact hkin
    exact (SameKin.exec hkin hC).imp (fun _ t hs ↦ ((hpop hne.1 hne.2).congr hs).heard)
      fun _ t hs ↦ ((hpop hne.1 hne.2).congr hs).heard
  cases i with
  | schedule => exact fun q pid c hm ↦ absurd hm.of_schedule (hnone Section.noConfusion q pid c)
  | waitScan pid =>
    have hv := hpop Section.noConfusion Section.noConfusion
    have htree := (ht.congr (SameKin.pop hcode rfl) fun p hp ↦
      absurd hp (h.not_telling hcode Section.noConfusion p)).1
    have hspec := NumbersOk.waitTarget_spec (hn.congr (SameNumbers.setCode s s.current rest)) htree
      pid
    rw [Section.exec, Ucore.waitScan, get_bind_run]
    cases htarget : (s.setCode s.current rest).waitTarget pid with
    | none => exact hv.heard
    | found c =>
      dsimp only
      rw [Ucore.waitFound, get_bind_run]
      refine sat_assert_bind fun _ ↦ ?_
      rw [modify_bind_run, modify_bind_run]
      exact ((hv.reap c).congr (SameKin.putKstack _ c)).heard
    | waiting =>
      rw [htarget] at hspec
      dsimp only
      rw [modify_bind_run]
      exact NoMiss.waiting hv hspec.2
  | waitSleep pid =>
    refine fun q pid' c hm ↦ absurd ?_ (h.not_telling hcode Section.noConfusion c)
    exact hh q pid' c (Missed.of_waitSleep hcode hm)
  | fork flags mem =>
    refine ((hpop Section.noConfusion Section.noConfusion).forkBegin flags mem fun p hp ↦ ?_).imp
      (fun _ _ hu ↦ hu.heard) fun _ _ hu ↦ hu.heard
    have hlive := hfresh.1 p hp
    refine ⟨fun hmem ↦ hlive ((ht.1.listing.live p).mpr (.inr (.inl hmem))), ?_⟩
    rintro rfl
    exact hlive h.sched.current_live
  | forkDup flags p m mem =>
    refine NoMiss.heard (NoMiss.push ((hpop Section.noConfusion Section.noConfusion).congr
      ((SameKin.setMem _ _).trans (SameKin.setMem _ _))) ?_)
    simp
  | forkMm flags p m mem =>
    have hv := hpop Section.noConfusion Section.noConfusion
    have hcopy := (SameKin.copyMmGood p m mem (s.setCode s.current rest)).imp
      (fun _ _ hu ↦ hv.congr hu) fun _ _ hu ↦ hv.congr hu
    have hdone := sat_onError (E := fun _ u ↦ u.NoMiss) hcopy fun _ u hu ↦
      (hu.cleanup p).imp (fun _ _ hs ↦ hs) fun _ _ hf ↦ hf.elim
    exact sat_bind (R := fun _ u ↦ u.NoMiss) (hdone.imp (fun _ _ hu ↦ hu) fun _ _ hu ↦ hu.heard)
      fun _ u hu ↦ (hu.push (by simp)).heard
  | forkLink flags p mem =>
    -- what is linked in is no zombie yet
    have hz : (s.proc p).state ≠ .zombie := by
      have hcodes := (h.pop hcode trivial Section.noConfusion).2 id
      have hq : embryo? (s.code s.current) = some p := by
        rw [hcode, hcodes]
        rfl
      rw [(h.sched.embryo p s.current hq).2]
      exact ProcState.noConfusion
    refine sat_bind (R := fun _ u ↦ u.NoMiss) (((hpop Section.noConfusion
      Section.noConfusion).forkLink hz).imp (fun _ _ hu ↦ hu) fun _ _ hf ↦ hf.elim) fun _ u hu ↦
        (hu.push (by simp)).heard
  | exit code =>
    have hv := hpop Section.noConfusion Section.noConfusion
    rw [Section.exec, Ucore.exitMm, get_bind_run]
    refine sat_assert_bind fun _ ↦ sat_assert_bind fun _ ↦ ?_
    refine sat_bind (R := fun _ t ↦ t.NoMiss) ((SameKin.dropMm _).imp
      (fun _ t hs ↦ hv.congr hs) fun _ t hs ↦ (hv.congr hs).heard) fun _ t hs ↦ ?_
    refine NoMiss.heard (hs.push ?_)
    split_ifs <;> simp
  | exitZombie code =>
    have hv := hpop Section.noConfusion Section.noConfusion
    obtain rfl := (h.pop hcode trivial Section.noConfusion).2 id
    exact hv.exitZombie (setCode_self s _ _) code
  | exitTell =>
    -- the child that was to tell does so here
    refine (exitTell_noMiss (fun q pid c hm ↦ ?_) (fun q pid hw hs ↦ ?_)
      (hawake Section.noConfusion)).imp (fun _ _ hu ↦ hu.heard) fun _ _ hf ↦ hf.elim
    · exact h.telling_current (hh q pid c (hback q pid c hm))
    · have hq : q ≠ s.current := by
        rintro rfl
        exact hawake Section.noConfusion pid hw
      rw [WaitsFor, setCode_of_ne s hq] at hw
      exact h.flagged hq hw hs
  | exited => trivial
  | _ => exact absurd trivial hkin

/-- Sections are put in front by a process that is not about to tell. -/
theorem Heard.setCode (hh : s.Heard) (htell : s.code s.current ≠ telling) {l : List Section}
    (hl : ∀ pid, .waitSleep pid ∉ l ∧ .waitRet pid ∉ l) : (s.push l).Heard := by
  intro p pid c hm
  have htold := hh p pid c
    ⟨hm.waits.of_push hl, hm.sleeping, hm.listed, hm.parent, hm.number, hm.zombie⟩
  rw [push, setCode_of_ne]
  · exact htold
  · rintro rfl
    exact htell htold

theorem Heard.step (hh : s.Heard) (ht : s.TreeKept) (hn : s.NumbersOk) (h : s.RunOk)
    {events : List Event} (hstep : KStep ForksPublish s events t) : t.Heard := by
  cases hstep with
  | interrupt hrun =>
    have hkin := SameKin.timerInterrupt s
    have hstill := StillAsleep.timerInterrupt s
    have hcode := timerInterrupt_code s
    rw [hrun] at hkin hstill hcode
    exact fun p pid c hm ↦ (congrFun hcode c).trans (hh p pid c (Missed.still hm hkin hstill))
  | call c hcode hidle =>
    have heq : s.setCode s.current c.code = s.push c.code := by
      rw [Kernel.push, hcode, List.append_nil]
    rw [heq]
    refine hh.setCode ?_ fun pid ↦ ?_
    · rw [hcode]
      exact (List.cons_ne_nil _ _).symm
    · cases c <;> simp [Call.code, doExecve, doExit]
  | @lock i rest hcode hi =>
    have heq : s.setCode s.current (i :: .locks :: rest) = s.push [i] := by
      rw [Kernel.push, hcode, List.singleton_append]
    rw [heq]
    refine hh.setCode ?_ fun pid ↦ ?_
    · rw [hcode]
      exact fun hc ↦ Section.noConfusion (List.cons.inj hc).1
    · cases hi <;> simp
  | @read fd rest hcode =>
    have heq : s.setCode s.current (.fileUse fd :: .reads fd :: rest) = s.push [.fileUse fd] := by
      rw [Kernel.push, hcode, List.singleton_append]
    rw [heq]
    refine hh.setCode ?_ fun pid ↦ ?_
    · rw [hcode]
      exact fun hc ↦ Section.noConfusion (List.cons.inj hc).1
    · simp
  | run hcode hC hfresh hrun =>
    have hsat := h.exec_heard ht hn hh hcode hC hfresh
    rw [hrun] at hsat
    exact hsat
  | fail hcode hC hfresh hrun =>
    have hsat := h.exec_heard ht hn hh hcode hC hfresh
    rw [hrun] at hsat
    exact hsat

theorem Heard.run (hh : s.Heard) (ht : s.TreeKept) (hn : s.NumbersOk) (h : s.RunOk)
    {events : List Event} (hrun : KRun ForksPublish s events t) : t.Heard := by
  induction hrun with
  | refl => exact hh
  | tail hrun hstep ih => exact ih.step (ht.run h hrun) (hn.run ht h hrun) (h.run hrun) hstep

theorem Booted.heard {value : ℕ → ℤ} (h : Booted value s) : s.Heard := by
  intro p pid c hm
  obtain ⟨u, p', pid', q, hu, -, rfl⟩ := Booted.single h
  exact absurd hm.zombie (hu.calm.1 c)

end Kernel

/-- In every state of every run from boot on in which the calls of `do_fork` that reach `copy_files`
succeed, a process that sleeps in `do_wait` has no zombie among the children that it waits for, but
for one on the processor that has still to wake it; and when that child has told its relatives the
parent does not sleep any longer. -/
theorem doWait_wakes {value : ℕ → ℤ} {s t : Kernel} {events : List Event} (hboot : Booted value s)
    (hrun : KRun ForksPublish s events t) {p pid c : ℕ}
    (hwaits : .waitSleep pid ∈ t.code p ∨ .waitRet pid ∈ t.code p)
    (hsleep : (t.proc p).state = .sleeping) (hlisted : c ∈ t.procList)
    (hparent : (t.proc c).parent = some p) (hpid : pid = 0 ∨ (t.proc c).pid = pid)
    (hzombie : (t.proc c).state = .zombie) :
    c = t.current ∧ t.code c = [.exitTell, .schedule, .exited] ∧
      ∀ es u, exitTell.run (t.setCode c [.schedule, .exited]) = .ok es u →
        (u.proc p).state ≠ .sleeping := by
  obtain ⟨htree, hok⟩ := treeKept_of_run hboot hrun
  have hheard := (Kernel.Booted.heard hboot).run (Kernel.Booted.treeKept hboot)
    (Kernel.Booted.numbers hboot) (Kernel.Booted.runOk hboot) hrun
  have htold := hheard p pid c ⟨hwaits, hsleep, hlisted, hparent, hpid, hzombie⟩
  obtain rfl := hok.telling_current htold
  refine ⟨rfl, htold, fun es u hrun' ↦ ?_⟩
  have hne : p ≠ t.current := by
    rintro rfl
    rw [hzombie] at hsleep
    cases hsleep
  have hflag := hok.flagged hne hwaits hsleep
  have hsat : (exitTell.run (t.setCode t.current [.schedule, .exited])).Sat
      (fun _ u ↦ (u.proc p).state ≠ .sleeping) fun _ _ ↦ True := by
    have hpar : ((t.setCode t.current [.schedule, .exited]).proc
        (t.setCode t.current [.schedule, .exited]).current).parent = some p := hparent
    rw [exitTell, get_bind_run, hpar]
    refine sat_bind (Kernel.wakeupIf_awake hflag p _) fun _ v hv ↦ ?_
    refine sat_bind (R := fun _ w ↦ (w.proc p).state ≠ .sleeping)
      ((Kernel.StillAsleep.reparentLoop _ v).imp (fun _ w hw hs ↦ hv (hw p hs).1)
        fun _ _ _ ↦ trivial) fun _ w hw ↦ hw
  rw [hrun'] at hsat
  exact hsat

/-- The number that a woken process looks for again. -/
def Section.waitRet? : Section → Option ℕ
  | .waitRet pid => some pid
  | _ => none

theorem Section.waitRet_mem {l : List Section} {pid : ℕ} (h : l.head?.bind waitRet? = some pid) :
    .waitRet pid ∈ l := by
  cases l with
  | nil => cases h
  | cons i rest =>
    cases i <;> cases h
    exact List.mem_cons_self

/-- `initproc` waits for any child, and one of two has just become a zombie. -/
theorem doWait_wakes_sample : ∃ s events t, Booted (fun _ ↦ 1) s ∧ KRun ForksPublish s events t ∧
    (t.proc 2).state = .sleeping ∧ 4 = t.current ∧ t.code 4 = [.exitTell, .schedule, .exited] := by
  have hrun : (followBoot ForksPublish (sampleBoot fun _ ↦ 1)
      [.call .schedule, .run, .call (.fork 0 (sampleFork 3 3 3)), .run, .run, .run, .run,
        .call (.fork 0 (sampleFork 4 4 4)), .run, .run, .run, .run, .call (.wait 0), .run, .run,
        .run, .call (.exit 7), .run, .run]).map
      (fun r ↦ (r.2.procList, (r.2.proc 4).parent, (r.2.proc 4).state, (r.2.proc 2).state,
        (r.2.code 2).head?.bind Section.waitRet?)) =
          some ([4, 3, 2], some 2, .zombie, .sleeping, some 0) := by decide +kernel
  obtain ⟨⟨events, t⟩, hfollow, hfacts⟩ := Option.map_eq_some_iff.mp hrun
  obtain ⟨s, hboot, hkrun⟩ := followBoot_krun hfollow
  obtain ⟨hlist, hrest⟩ := Prod.mk.inj hfacts
  obtain ⟨hpar, hrest⟩ := Prod.mk.inj hrest
  obtain ⟨hz, hrest⟩ := Prod.mk.inj hrest
  obtain ⟨hsleep, hwait⟩ := Prod.mk.inj hrest
  dsimp only at hlist hpar hz hsleep hwait
  obtain ⟨hcur, hcode, -⟩ := doWait_wakes hboot hkrun (.inr (Section.waitRet_mem hwait)) hsleep
    (hlist ▸ List.mem_cons_self) hpar (.inl rfl) hz
  exact ⟨s, events, t, hboot, hkrun, hsleep, hcur, hcode⟩

end Ucore
