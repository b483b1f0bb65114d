import Ucore.Proc.SchedRuns

/-!
# The run queue in do_fork

Between `alloc_proc` and `wakeup_proc` the new process structure is an *embryo*: it is in state
`PROC_UNINIT`, and only the call of `do_fork` that made it knows its address. On an error path it
can be freed, and when it is woken it joins the run queue.

The current process is `Active` before the call and `Embryonic` from `alloc_proc` to `wakeup_proc`;
each part of `do_fork` has a lemma about the two. At boot nothing runs in between, and the lemmas
give one about the whole call (`Active.doFork`). Later the sections of the call are steps of their
own, and what a section does to the embryo is what the call finds when it goes on.
-/

namespace Ucore

open Prog

namespace Kernel

variable {s t : Kernel} {boot : Prop} {p : ℕ}

/-- The current process is between two sections and has no other one to come back to; only at boot
it is the idle process. -/
structure Active (s : Kernel) (boot : Prop) : Prop where
  ok : s.RunOk
  runnable : (s.proc s.current).state = .runnable
  zero : (s.proc s.current).waitState = 0
  code_nil : s.code s.current = []
  not_idle : boot ∨ s.current ≠ s.idleproc

/-- The current process is in `do_fork` and has not published the structure `p` yet. -/
structure Embryonic (s : Kernel) (boot : Prop) (p : ℕ) : Prop extends s.Active boot where
  live : p ∈ s.live
  uninit : (s.proc p).state = .uninit
  hidden : ∀ q, embryo? (s.code q) ≠ some p

theorem Active.congr (h : s.Active boot) (hsame : SameSched s t) : t.Active boot where
  ok := h.ok.congr hsame
  runnable := by
    rw [hsame.current, hsame.state]
    exact h.runnable
  zero := by
    rw [hsame.current, hsame.waitState]
    exact h.zero
  code_nil := by
    rw [hsame.code, hsame.current]
    exact h.code_nil
  not_idle := by
    rw [hsame.current, hsame.idleproc]
    exact h.not_idle

theorem Active.running (h : s.Active False) : s.Running where
  ok := h.ok
  runnable := h.runnable
  zero := h.zero
  tidy := by
    rw [h.code_nil]
    exact .nil
  not_idle := h.not_idle.resolve_left id

theorem Running.active (h : s.Running) (hnil : s.code s.current = []) : s.Active False :=
  ⟨h.ok, h.runnable, h.zero, hnil, .inr h.not_idle⟩

theorem Embryonic.congr (h : s.Embryonic boot p) (hsame : SameSched s t) : t.Embryonic boot p where
  toActive := h.toActive.congr hsame
  live := by
    rw [hsame.live]
    exact h.live
  uninit := by
    rw [hsame.state]
    exact h.uninit
  hidden q := by
    rw [hsame.code]
    exact h.hidden q

theorem Embryonic.ne_current (h : s.Embryonic boot p) : p ≠ s.current := by
  rintro rfl
  have hun := h.uninit
  rw [h.runnable] at hun
  cases hun

/-- `kfree` on an error path. -/
theorem Embryonic.kfreeProc (h : s.Embryonic boot p) : (s.kfreeProc p).RunOk :=
  h.ok.kfreeProc (.inl h.uninit) h.ne_current h.hidden

/-- The code from `bad_fork_cleanup_kstack` on. -/
theorem Embryonic.cleanup (h : s.Embryonic boot p) :
    ∃ t, (badForkCleanupKstack p).run s = .ok () t ∧ t.RunOk :=
  ⟨_, rfl, (h.congr (SameSched.putKstack s p)).kfreeProc⟩

/-- The call of `do_fork` goes on with a section about `p`. -/
theorem Embryonic.push (h : s.Embryonic False p) {l : List Section} (hl : Tidy l)
    (hemb : ∀ q, embryo? l = some q → q = p) : (s.push l).RunOk := by
  rw [Kernel.push, h.code_nil, List.append_nil]
  refine (h.toActive.running.setCode hl fun q hq ↦ ?_).ok
  rw [hemb q hq]
  exact ⟨h.live, h.uninit, fun r hr ↦ absurd hr (h.hidden r)⟩

/-- A section of `do_fork` on the embryo `p` begins. -/
theorem RunOk.pop_embryonic (h : s.RunOk) {i : Section} {rest : List Section}
    (hcode : s.code s.current = i :: rest) (hi : i.embryo? = some p) :
    (s.setCode s.current rest).Embryonic False p := by
  have hplain : i.Plain := by
    cases i <;> cases hi <;> trivial
  have hsched : i ≠ .schedule := by
    rintro rfl
    cases hi
  have hinner : ¬i.Inner := by
    intro hinner
    rw [hinner.embryo?_eq] at hi
    cases hi
  obtain ⟨hrunning, hnil⟩ := h.pop hcode hplain hsched
  obtain rfl := hnil hinner
  have hcur : embryo? (s.code s.current) = some p := by
    rw [hcode, embryo?_singleton]
    exact hi
  obtain ⟨hlive, hun⟩ := h.sched.embryo p s.current hcur
  refine ⟨hrunning.active (setCode_self s _ _), hlive, hun, fun q hq ↦ ?_⟩
  rcases eq_or_ne q s.current with rfl | hne
  · rw [setCode_self, embryo?_nil] at hq
    cases hq
  · rw [setCode_of_ne s hne] at hq
    exact hne (h.sched.embryo_unique p q s.current hq hcur)

/-! ## alloc_proc -/

/-- Memory that is not in use as a process structure becomes one. -/
def embryo (s : Kernel) (p : ℕ) : Kernel :=
  (s.allocProc p).setProc p fun q ↦ { q with parent := some s.current }

theorem embryo_proc_of_ne {q : ℕ} (s : Kernel) (h : q ≠ p) : (s.embryo p).proc q = s.proc q := by
  rw [embryo, setProc_of_ne _ h]
  exact Function.update_of_ne h ..

theorem embryo_proc_self (s : Kernel) (p : ℕ) :
    (s.embryo p).proc p = { Proc.blank with parent := some s.current } := by
  have hblank : (s.allocProc p).proc p = .blank := Function.update_self ..
  rw [embryo, setProc_self, hblank]

theorem embryo_code_of_ne {q : ℕ} (s : Kernel) (h : q ≠ p) : (s.embryo p).code q = s.code q :=
  Function.update_of_ne h ..

theorem embryo_code_self (s : Kernel) (p : ℕ) : (s.embryo p).code p = [] :=
  Function.update_self ..

/-- A structure that is not in use has nothing to do, and nothing refers to it. -/
theorem SchedOk.unused_code (h : s.SchedOk) (hp : p ∉ s.live) :
    (s.proc p).state ≠ .sleeping ∧ (s.proc p).state ≠ .runnable ∧ ¬AtTimer (s.code p) ∧
      embryo? (s.code p) = none := by
  have hshape := h.shape p
  have hne : p ≠ s.current := by
    rintro rfl
    exact hp h.current_live
  rcases h.unused p hp with hst | hst
  · rw [hst] at hshape ⊢
    generalize (s.proc p).waitState = w at hshape
    generalize s.code p = l at hshape ⊢
    cases hshape with
    | uninit _ => exact ⟨ProcState.noConfusion, ProcState.noConfusion, id, rfl⟩
  · rw [hst] at hshape ⊢
    generalize (s.proc p).waitState = w at hshape
    generalize s.code p = l at hshape ⊢
    cases hshape with
    | telling hcur | dying hcur => exact absurd hcur hne
    | dead _ => exact ⟨ProcState.noConfusion, ProcState.noConfusion, id, rfl⟩

theorem Active.embryo (h : s.Active boot) (hp : p ∉ s.live) : (s.embryo p).Embryonic boot p := by
  have hs := h.ok.sched
  -- nothing refers to an address that is not in use: no queue, no timer and no code
  obtain ⟨hsleep, hrun, htimer, hnone⟩ := hs.unused_code hp
  have hne : ∀ q ∈ s.live, q ≠ p := by
    rintro q hq rfl
    exact hp hq
  have hcur := hne _ hs.current_live
  have hidle := hne _ hs.idle_live
  have hmem : ∀ q, q ∈ (s.embryo p).live ↔ q = p ∨ q ∈ s.live := fun q ↦ Finset.mem_insert
  have hemb : ∀ q, embryo? ((s.embryo p).code q) = embryo? (s.code q) := by
    intro q
    rcases eq_or_ne q p with rfl | hq
    · rw [embryo_code_self, hnone, embryo?_nil]
    · rw [embryo_code_of_ne s hq]
  have hcode : (s.embryo p).code (s.embryo p).current = s.code s.current := embryo_code_of_ne s hcur
  have hproc : (s.embryo p).proc (s.embryo p).current = s.proc s.current := embryo_proc_of_ne s hcur
  refine ⟨⟨⟨⟨(hmem _).mpr (.inr hs.current_live), (hmem _).mpr (.inr hs.idle_live), ?_, ?_,
    fun q ↦ ?_, fun q hq ↦ ?_, fun q hq hq' ↦ ?_, hs.queue.congr fun q ↦ ?_, hs.timers,
    fun t ht ↦ ⟨(hs.timer t ht).1, ?_⟩, fun r q hq ↦ ?_, fun r q q' hq hq' ↦ ?_⟩, ?_⟩, ?_, ?_, ?_,
    h.not_idle⟩, (hmem p).mpr (.inl rfl), ?_, fun q hq ↦ ?_⟩
  · change ((s.embryo p).proc s.idleproc).state = .runnable
    rw [embryo_proc_of_ne s hidle]
    exact hs.idle_runnable
  · change (s.embryo p).code s.idleproc = [] ∨ (s.embryo p).code s.idleproc = [.schedule]
    rw [embryo_code_of_ne s hidle]
    exact hs.idle_code
  · change Shape (q = s.current) _ _ (s.wakeupFlags q) _
    rcases eq_or_ne q p with rfl | hq
    · rw [embryo_proc_self, embryo_code_self]
      exact .uninit fun heq ↦ hcur heq.symm
    · rw [embryo_proc_of_ne s hq, embryo_code_of_ne s hq]
      exact hs.shape q
  · have hq' := fun hor ↦ hq ((hmem q).mpr hor)
    have hqp : q ≠ p := fun heq ↦ hq' (.inl heq)
    rw [embryo_proc_of_ne s hqp]
    exact hs.unused q fun hlive ↦ hq' (.inr hlive)
  · rcases eq_or_ne q p with rfl | hqp
    · rw [embryo_proc_self]
      exact Option.some_ne_none _
    · rw [embryo_proc_of_ne s hqp]
      exact hs.parent q (((hmem q).mp hq).resolve_left hqp) hq'
  · change s.Ready q ↔ q ∈ (s.embryo p).live ∧ _ ∧ q ≠ s.current ∧ q ≠ s.idleproc
    rw [hmem]
    rcases eq_or_ne q p with rfl | hqp
    · rw [embryo_proc_self]
      constructor
      · intro hready
        exact absurd hready.1 hp
      · rintro ⟨-, hst, -⟩
        cases hst
    · rw [embryo_proc_of_ne s hqp]
      exact ⟨fun hready ↦ ⟨.inr hready.1, hready.2⟩, fun hready ↦
        ⟨hready.1.resolve_left hqp, hready.2⟩⟩
  · have hat := (hs.timer t ht).2
    have hid : t.id ≠ p := by
      intro heq
      exact htimer (heq ▸ hat)
    rw [embryo_code_of_ne s hid]
    exact hat
  · rw [hemb] at hq
    obtain ⟨hlive, hun⟩ := hs.embryo r q hq
    rw [embryo_proc_of_ne s (hne r hlive)]
    exact ⟨(hmem r).mpr (.inr hlive), hun⟩
  · rw [hemb] at hq hq'
    exact hs.embryo_unique r q q' hq hq'
  · have hplace : (s.embryo p).place = s.place := by
      funext q
      rcases eq_or_ne q p with rfl | hqp
      · rw [place_of_ne hsleep]
        refine place_of_ne ?_
        rw [embryo_proc_self]
        exact ProcState.noConfusion
      · rw [place, place, embryo_proc_of_ne s hqp, embryo_code_of_ne s hqp]
    rw [SemsOk, hplace]
    exact h.ok.sems
  · rw [hproc]
    exact h.runnable
  · rw [hproc]
    exact h.zero
  · rw [hcode]
    exact h.code_nil
  · rw [embryo_proc_self]
    rfl
  · rw [hemb] at hq
    exact hp (hs.embryo p q hq).1

/-! ## The sections of do_fork -/

theorem Active.forkAlloc (h : s.Active boot) (mem : ForkMem)
    (hp : ∀ p, mem.proc.addr = some p → p ∉ s.live) :
    ((Ucore.forkAlloc mem).run s).Sat (fun p t ↦ t.Embryonic boot p) fun _ t ↦ t.RunOk := by
  rw [Ucore.forkAlloc, get_bind_run]
  by_cases hmax : maxProcess ≤ s.nrProcess
  · rw [if_pos hmax]
    exact h.ok
  rw [if_neg hmax, modify_bind_run]
  have hgrow : SameSched s (s.growArena mem.proc) := SameSched.setMem s _
  cases haddr : mem.proc.addr with
  | none => exact h.ok.congr hgrow
  | some p =>
    dsimp only
    rw [modify_bind_run, get_bind_run]
    refine sat_assert_bind fun _ ↦ ?_
    have hemb := (h.congr hgrow).embryo (hp p haddr)
    cases mem.kstack with
    | none => exact hemb.kfreeProc
    | some page =>
      dsimp only
      rw [modify_bind_run, run_pure]
      exact hemb.congr ((SameSched.setMem _ _).trans (SameSched.setLink _ p
        (fun q ↦ { q with kstack := some page }) (fun _ ↦ rfl) (fun _ ↦ rfl) fun _ ↦ rfl))

theorem Embryonic.copyMmAlloc (h : s.Embryonic boot p) (flags : BitVec 32) (mem : ForkMem) :
    ((Ucore.copyMmAlloc flags p mem).run s).Sat (fun _ t ↦ t.Embryonic boot p)
      fun _ t ↦ t.Embryonic boot p := by
  rw [Ucore.copyMmAlloc, get_bind_run]
  cases (s.proc s.current).mm with
  | none => exact h
  | some oldmm =>
    dsimp only
    by_cases hvm : flags &&& cloneVm ≠ 0
    · rw [if_pos hvm]
      exact h.congr (SameSched.goodMm s p oldmm)
    · rw [if_neg hvm, modify_bind_run]
      have hgrow := h.congr (SameSched.setMem s fun m ↦
        { m with freePages := m.freePages \ mem.mm.grown })
      cases mem.mm.addr with
      | none => exact hgrow
      | some m =>
        cases mem.pgdir with
        | none => exact hgrow
        | some pgdir => exact hgrow.congr (SameSched.mmCreate _ m pgdir)

theorem Active.forkBegin (h : s.Active False) (flags : BitVec 32) (mem : ForkMem)
    (hp : ∀ p, mem.proc.addr = some p → p ∉ s.live) : Keeps (Ucore.forkBegin flags mem) s := by
  rw [Keeps, Ucore.forkBegin]
  refine sat_bind (h.forkAlloc mem hp) fun p t ht ↦ ?_
  refine sat_bind (sat_onError (ht.copyMmAlloc flags mem) fun e u hu ↦ ?_) fun c u hu ↦ ?_
  · obtain ⟨v, hrun, hok⟩ := hu.cleanup
    rw [hrun]
    exact hok
  · cases c with
    | done => exact hu.push (.last trivial) fun q hq ↦ (Option.some.inj hq).symm
    | dup m =>
      exact hu.push (.cons trivial (.last trivial)) fun q hq ↦ (Option.some.inj hq).symm

theorem Embryonic.forkDup (h : s.Embryonic False p) (flags : BitVec 32) (m : ℕ) (mem : ForkMem) :
    Keeps (Section.exec (.forkDup flags p m mem)) s :=
  (h.congr (SameSched.mmPages s m mem.dupPages mem.dupLost)).push (.cons trivial (.last trivial))
    fun _ hq ↦ (Option.some.inj hq).symm

theorem Embryonic.copyMmGood (h : s.Embryonic boot p) (m : ℕ) (mem : ForkMem) :
    ((Ucore.copyMmGood p m mem).run s).Sat (fun _ t ↦ t.Embryonic boot p)
      fun _ t ↦ t.Embryonic boot p := by
  rw [Ucore.copyMmGood]
  by_cases hdup : mem.dup = true
  · rw [if_pos hdup]
    exact h.congr (SameSched.goodMm s p m)
  · rw [if_neg hdup, modify_bind_run]
    exact h.congr (SameSched.mmFree s m)

theorem Embryonic.forkMm (h : s.Embryonic False p) (flags : BitVec 32) (m : ℕ) (mem : ForkMem) :
    Keeps (Section.exec (.forkMm flags p m mem)) s := by
  rw [Keeps, Section.exec]
  refine sat_bind (sat_onError (h.copyMmGood m mem) fun e t ht ↦ ?_) fun _ t ht ↦ ?_
  · obtain ⟨u, hrun, hok⟩ := ht.cleanup
    rw [hrun]
    exact hok
  · exact ht.push (.last trivial) fun _ hq ↦ (Option.some.inj hq).symm

theorem Embryonic.forkLink (h : s.Embryonic boot p) :
    ((Ucore.forkLink p).run s).Sat (fun _ t ↦ t.Embryonic boot p) fun _ _ ↦ False := by
  rw [Ucore.forkLink, get_bind_run]
  cases getPid (2 * maxPid) ⟨s.lastPid, s.nextSafe, s.procList.map fun q ↦ (s.proc q).pid⟩ with
  | none => trivial
  | some r =>
    cases (s.proc p).parent with
    | none => trivial
    | some q =>
      dsimp only
      rw [run_modify]
      have hpid : SameSched s { s with lastPid := r.lastPid, nextSafe := r.nextSafe } :=
        ⟨rfl, rfl, rfl, rfl, rfl, rfl, rfl, rfl, rfl, fun _ ↦ rfl, fun _ ↦ rfl, fun _ ↦ id⟩
      exact h.congr (((hpid.trans (SameSched.setLink _ p (fun q ↦ { q with pid := r.lastPid })
        (fun _ ↦ rfl) (fun _ ↦ rfl) fun _ ↦ rfl)).trans (SameSched.hashProc _ p)).trans
          (SameSched.setLinks _ p q))

theorem Embryonic.forkLinkSection (h : s.Embryonic False p) (flags : BitVec 32) (mem : ForkMem) :
    Keeps (Section.exec (.forkLink flags p mem)) s := by
  rw [Keeps, Section.exec]
  refine sat_bind (R := fun _ t ↦ t.Embryonic False p) ?_ fun _ t ht ↦
    ht.push (.last trivial) fun _ hq ↦ (Option.some.inj hq).symm
  exact h.forkLink.imp (fun _ _ ht ↦ ht) fun _ _ hfalse ↦ absurd hfalse id

/-- The new process joins the run queue. -/
theorem Embryonic.wakeup (h : s.Embryonic boot p) : (s.wakeup p).Active boot := by
  have hs := h.ok.sched
  have hcode : s.code p = [] := by
    have hshape := hs.shape p
    rw [h.uninit] at hshape
    generalize (s.proc p).waitState = w at hshape
    generalize s.code p = l at hshape ⊢
    cases hshape with
    | uninit _ => rfl
  have hrun : (s.proc p).state ≠ .runnable := by
    rw [h.uninit]
    exact ProcState.noConfusion
  obtain ⟨f, slice, rq, heq, hf, -⟩ := wakeup_eq s p
  have hcur : (s.wakeup p).current = s.current := by
    rw [heq]
    rfl
  have hproc : (s.wakeup p).proc s.current = s.proc s.current := by
    rw [heq]
    exact setProc_of_ne s h.ne_current.symm f
  refine ⟨⟨hs.wakeup h.live hrun ?_ h.hidden, ?_⟩, ?_, ?_, ?_, ?_⟩
  · rw [hcode]
    exact .plain .nil
  · have hplace : s.place p = none := by
      refine place_of_ne ?_
      rw [h.uninit]
      exact ProcState.noConfusion
    rw [SemsOk, place_wakeup, sems_wakeup]
    exact h.ok.sems.stay hplace
  · rw [hcur, hproc]
    exact h.runnable
  · rw [hcur, hproc]
    exact h.zero
  · rw [code_wakeup, hcur]
    exact h.code_nil
  · rw [heq]
    exact h.not_idle

/-- `wakeup_proc` does not halt in `do_fork`. -/
theorem Embryonic.run_wakeupProc (h : s.Embryonic boot p) :
    (Ucore.wakeupProc p).run s = .ok () (s.wakeup p) := by
  have hz : (s.proc p).state ≠ .zombie := by
    rw [h.uninit]
    exact ProcState.noConfusion
  have hr : (s.proc p).state ≠ .runnable := by
    rw [h.uninit]
    exact ProcState.noConfusion
  rw [Ucore.run_wakeupProc hz, if_pos hr]

theorem Embryonic.forkWake (h : s.Embryonic False p) (flags : BitVec 32) (mem : ForkMem) :
    ∃ t, (Section.exec (.forkWake flags p mem)).run s = .ok [] t ∧ t.RunOk := by
  refine ⟨(s.wakeup p).push [.forkFiles flags p mem], ?_, ?_⟩
  · rw [Section.exec, bind_of_ok h.run_wakeupProc, modify_bind_run, run_pure]
  · refine (h.wakeup.running.push ?_ ?_).ok
    · rw [h.wakeup.code_nil, List.append_nil]
      exact .last trivial
    · simp [Section.embryo?]

/-- `copy_files`, when it succeeds. -/
theorem RunOk.copyFiles (h : s.RunOk) (flags : BitVec 32) (p : ℕ) (mem : ForkMem)
    (hmem : flags &&& cloneFs ≠ 0 ∨ mem.files.addr ≠ none) :
    ((Ucore.copyFiles flags p mem).run s).Sat (fun _ t ↦ t.RunOk) fun _ _ ↦ False := by
  have hgood : ∀ (t : Kernel) (f : ℕ), SameSched s t →
      ((goodFiles p f).run t).Sat (fun _ u ↦ u.RunOk) fun _ _ ↦ False := by
    intro t f ht
    have hfilesp := SameSched.setLink
        (t.setFiles f fun files ↦ { files with count := files.count + 1 })
      p (fun q ↦ { q with filesp := some f }) (fun _ ↦ rfl) (fun _ ↦ rfl) fun _ ↦ rfl
    exact h.congr ((ht.trans (SameSched.setFiles t f _)).trans hfilesp)
  rw [Ucore.copyFiles, get_bind_run]
  cases (s.proc s.current).filesp with
  | none => trivial
  | some old =>
    dsimp only
    by_cases hfs : flags &&& cloneFs ≠ 0
    · rw [if_pos hfs]
      exact hgood s old (.refl s)
    · rw [if_neg hfs, modify_bind_run]
      cases haddr : mem.files.addr with
      | none => exact absurd haddr (hmem.resolve_left hfs)
      | some f =>
        dsimp only
        rw [modify_bind_run]
        refine sat_assert_bind fun _ ↦ ?_
        rw [modify_bind_run]
        have hgrow : SameSched s (s.growArena mem.files) := SameSched.setMem s _
        have hcreate := hgrow.trans (SameSched.filesCreate _ f mem.filesPage)
        exact hgood _ f (hcreate.trans (SameSched.setFiles _ f _))

theorem RunOk.forkFiles (h : s.RunOk) (flags : BitVec 32) (p : ℕ) (mem : ForkMem)
    (hmem : flags &&& cloneFs ≠ 0 ∨ mem.files.addr ≠ none) :
    Keeps (Section.exec (.forkFiles flags p mem)) s := by
  rw [Keeps, Section.exec]
  exact forkFiles_sat (h.copyFiles flags p mem hmem)

/-- A call of `do_fork` whose `copy_files` succeeds. -/
theorem Active.doFork (h : s.Active boot) (flags : BitVec 32) (mem : ForkMem)
    (hp : ∀ p, mem.proc.addr = some p → p ∉ s.live)
    (hmem : flags &&& cloneFs ≠ 0 ∨ mem.files.addr ≠ none) :
    ((Ucore.doFork flags mem).run s).Sat (fun _ t ↦ t.RunOk) fun _ t ↦ t.RunOk := by
  rw [Ucore.doFork]
  refine sat_bind (h.forkAlloc mem hp) fun p t ht ↦ ?_
  have hcopy : ((copyMm flags p mem).run t).Sat (fun _ u ↦ u.Embryonic boot p)
      fun _ u ↦ u.Embryonic boot p := by
    rw [copyMm]
    refine sat_bind (ht.copyMmAlloc flags mem) fun c u hu ↦ ?_
    cases c with
    | done => exact hu
    | dup m =>
      dsimp only
      rw [dupMmap, modify_bind_run]
      exact (hu.congr (SameSched.mmPages u m mem.dupPages mem.dupLost)).copyMmGood m mem
  refine sat_bind (sat_onError hcopy fun e u hu ↦ ?_) fun _ u hu ↦ ?_
  · obtain ⟨v, hrun, hok⟩ := hu.cleanup
    rw [hrun]
    exact hok
  · refine sat_bind (R := fun _ v ↦ v.Embryonic boot p) ?_ fun _ v hv ↦ ?_
    · exact hu.forkLink.imp (fun _ _ hv ↦ hv) fun _ _ hfalse ↦ absurd hfalse id
    · rw [bind_of_ok hv.run_wakeupProc, get_bind_run]
      exact sat_bind (forkFiles_sat (hv.wakeup.ok.copyFiles flags p mem hmem)) fun _ _ hw ↦ hw

end Kernel

end Ucore
