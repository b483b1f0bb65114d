import Ucore.Proc.ProcessTree

/-!
# Process numbers in every run

`get_pid` gives out numbers that no process carries, and `find_proc` finds a process by its number.
`do_fork` compares `nr_process` with `MAX_PROCESS` before it may sleep in `dup_mmap`, so more
processes than that can come to be linked; there are always fewer than `MAX_PID`, and so `get_pid`
ends. The main results are `findProc_exact` and `doWait_exact`.

## The invariant

`NumbersOk` says that the processes on `proc_list` have different numbers between 1 and `MAX_PID`,
that each is in the hash list of its number, and that no process has a number above `last_pid` and
below `next_safe`: that window is what `get_pid` relies on between two calls. Processes that leave
cannot spoil it, and a process joins with the number that `get_pid` has just moved `last_pid` to.

How many processes there are is bounded by who makes them: a process structure that is not linked
yet belongs to a call of `do_fork` by a process that is, and no process makes two at a time
(`RunOk.live_card`).
-/

namespace Ucore

open Prog

namespace Kernel

variable {s t u : Kernel} {p : ℕ}

/-- The numbers of the processes on `proc_list`. -/
def pids (s : Kernel) : List ℕ := s.procList.map fun p ↦ (s.proc p).pid

/-- The processes have different numbers, and are found by them. -/
structure NumbersOk (s : Kernel) : Prop where
  hashed : ∀ p ∈ s.procList, p ∈ s.hashList (pidHashfn (s.proc p).pid)
  nodup : s.pids.Nodup
  range : ∀ n ∈ s.pids, 1 ≤ n ∧ n < maxPid
  next_le : s.nextSafe ≤ maxPid
  window : Clear s.pids (s.lastPid + 1) s.nextSafe
  room : s.live.card < maxPid

/-- Two states agree on the numbers of the processes. -/
structure SameNumbers (s t : Kernel) : Prop where
  procList : t.procList = s.procList
  hashList : t.hashList = s.hashList
  counters : t.lastPid = s.lastPid ∧ t.nextSafe = s.nextSafe
  pid : ∀ p, (t.proc p).pid = (s.proc p).pid
  live : t.live.card ≤ s.live.card

namespace SameNumbers

theorem refl (s : Kernel) : SameNumbers s s := ⟨rfl, rfl, ⟨rfl, rfl⟩, fun _ ↦ rfl, le_rfl⟩

theorem trans (h : SameNumbers s t) (h' : SameNumbers t u) : SameNumbers s u where
  procList := h'.procList.trans h.procList
  hashList := h'.hashList.trans h.hashList
  counters := ⟨h'.counters.1.trans h.counters.1, h'.counters.2.trans h.counters.2⟩
  pid p := (h'.pid p).trans (h.pid p)
  live := h'.live.trans h.live

instance : Std.Refl SameNumbers := ⟨refl⟩

instance : IsTrans Kernel SameNumbers := ⟨fun _ _ _ ↦ trans⟩

theorem of_kin (h : SameKin s t) : SameNumbers s t where
  procList := h.procList
  hashList := h.hashList
  counters := h.counters
  pid := h.pid
  live := by rw [h.live]

theorem push (s : Kernel) (l : List Section) : SameNumbers s (s.push l) :=
  ⟨rfl, rfl, ⟨rfl, rfl⟩, fun _ ↦ rfl, le_rfl⟩

theorem setCode (s : Kernel) (q : ℕ) (l : List Section) : SameNumbers s (s.setCode q l) :=
  ⟨rfl, rfl, ⟨rfl, rfl⟩, fun _ ↦ rfl, le_rfl⟩

theorem kfreeProc (s : Kernel) (p : ℕ) : SameNumbers s (s.kfreeProc p) :=
  ⟨rfl, rfl, ⟨rfl, rfl⟩, fun _ ↦ rfl, Finset.card_le_card (Finset.erase_subset p s.live)⟩

theorem cleanup (s : Kernel) (p : ℕ) :
    ((badForkCleanupKstack p).run s).Sat (fun _ t ↦ SameNumbers s t) fun _ _ ↦ False :=
  (kfreeProc s p).trans (of_kin (SameKin.putKstack s p))

theorem schedule (s : Kernel) : SameNumbers s s.schedule := by
  obtain ⟨t, p, rq, hsame, heq⟩ := SameKin.schedule s
  have hset : SameNumbers t (t.setCurrent p rq) := ⟨rfl, rfl, ⟨rfl, rfl⟩, fun _ ↦ rfl, le_rfl⟩
  rw [heq]
  exact (of_kin hsame).trans hset

theorem handOver (s : Kernel) (p : ℕ) : SameNumbers s (s.handOver p) := by
  obtain ⟨f, hf⟩ := s.handOver_eq p
  have hpid := handOver_field (g := Proc.pid) (fun _ _ ↦ rfl) (fun _ _ ↦ rfl) (fun _ _ ↦ rfl)
    (fun _ _ ↦ rfl) s p
  exact ⟨by rw [hf], by rw [hf], by rw [hf]; exact ⟨rfl, rfl⟩, hpid, by rw [hf]⟩

theorem wakeupIf (c : Prop) [Decidable c] (p : ℕ) (s : Kernel) :
    ((Ucore.wakeupIf c p).run s).Sat (fun _ t ↦ SameNumbers s t) fun _ _ ↦ False :=
  (SameKin.wakeupIf_sat c p s).imp (fun _ _ hs ↦ of_kin hs) fun _ _ hf ↦ hf

theorem reparent (p : ℕ) (s : Kernel) :
    ((Ucore.reparent p).run s).Sat (fun _ t ↦ SameNumbers s t) fun _ _ ↦ False := by
  rw [run_reparent]
  exact (wakeupIf _ _ (s.handOver p)).imp (fun _ _ hs ↦ (handOver s p).trans hs) fun _ _ hf ↦ hf

theorem reparentLoop (fuel : ℕ) (s : Kernel) :
    ((Ucore.reparentLoop fuel).run s).Sat (fun _ t ↦ SameNumbers s t) fun _ _ ↦ False := by
  induction fuel generalizing s with
  | zero => exact refl s
  | succ fuel ih =>
    rw [Ucore.reparentLoop, get_bind_run]
    cases (s.proc s.current).cptr with
    | none => exact refl s
    | some p =>
      exact sat_bind (reparent p s) fun _ t ht ↦
        (ih t).imp (fun _ _ hs ↦ ht.trans hs) fun _ _ hf ↦ hf

theorem exitTell (s : Kernel) :
    (Ucore.exitTell.run s).Sat (fun _ t ↦ SameNumbers s t) fun _ _ ↦ False := by
  rw [Ucore.exitTell, get_bind_run]
  cases (s.proc s.current).parent with
  | none => trivial
  | some q =>
    refine sat_bind (wakeupIf _ q s) fun _ t ht ↦ sat_bind (reparentLoop _ t) fun _ u hu ↦ ?_
    exact ht.trans hu

end SameNumbers

theorem SameNumbers.pids (h : SameNumbers s t) : t.pids = s.pids := by
  rw [Kernel.pids, Kernel.pids, h.procList]
  exact List.map_congr_left fun p _ ↦ h.pid p

theorem NumbersOk.congr (h : s.NumbersOk) (hsame : SameNumbers s t) : t.NumbersOk where
  hashed p hp := by
    rw [hsame.pid, hsame.hashList]
    rw [hsame.procList] at hp
    exact h.hashed p hp
  nodup := by
    rw [hsame.pids]
    exact h.nodup
  range := by
    rw [hsame.pids]
    exact h.range
  next_le := by
    rw [hsame.counters.2]
    exact h.next_le
  window := by
    rw [hsame.pids, hsame.counters.1, hsame.counters.2]
    exact h.window
  room := hsame.live.trans_lt h.room

/-! ## How many there are -/

/-- A process that has still to link another is on `proc_list` itself. -/
theorem RunOk.maker_listed (h : s.RunOk) (hl : s.Listing none) {q : ℕ}
    (hq : linking? (s.code q) = some p) : q ∈ s.procList := by
  have hne : s.code q ≠ [] := by
    intro hnil
    rw [hnil, linking?_nil] at hq
    cases hq
  refine h.listed hl ?_ ?_ fun hst ↦ ?_
  · by_contra hlive
    have hnone := (h.sched.unused_code hlive).2.2.2
    rw [embryo?_of_linking? hq] at hnone
    cases hnone
  · rintro rfl
    rcases h.sched.idle_code with hc | hc
    · exact hne hc
    · rw [hc] at hq
      cases hq
  · have hshape := h.sched.shape q
    rw [hst] at hshape
    generalize s.code q = l at hshape hne
    generalize (s.proc q).waitState = w at hshape
    cases hshape with
    | uninit _ => exact hne rfl

/-- No process makes more than one other at a time. -/
theorem RunOk.live_card (h : s.RunOk) (hl : s.Listing none) :
    s.live.card ≤ 2 * s.procList.length + 1 := by
  set made : ℕ → ℕ := fun q ↦ (linking? (s.code q)).getD 0 with hmade
  have hsub : s.live ⊆
      Insert.insert s.idleproc (s.procList.toFinset ∪ s.procList.toFinset.image made) := by
    intro p hp
    rw [Finset.mem_insert, Finset.mem_union, Finset.mem_image, List.mem_toFinset]
    refine ((hl.live p).mp hp).imp_right fun hp ↦ hp.imp_right fun hp ↦ ?_
    obtain ⟨q, hq⟩ := hp.resolve_right fun hnone ↦ Option.some_ne_none p hnone.symm
    refine ⟨q, List.mem_toFinset.mpr (h.maker_listed hl hq), ?_⟩
    rw [hmade]
    change (linking? (s.code q)).getD 0 = p
    rw [hq, Option.getD_some]
  have hlen := List.toFinset_card_le s.procList
  calc s.live.card
      ≤ (s.procList.toFinset ∪ s.procList.toFinset.image made).card + 1 :=
        (Finset.card_le_card hsub).trans (Finset.card_insert_le _ _)
    _ ≤ s.procList.toFinset.card + (s.procList.toFinset.image made).card + 1 :=
        Nat.add_le_add_right (Finset.card_union_le _ _) 1
    _ ≤ 2 * s.procList.length + 1 := by
        have himage := Finset.card_image_le (s := s.procList.toFinset) (f := made)
        omega

/-- The idle process and those on `proc_list` are in use. -/
theorem Listing.length_lt {x : Option ℕ} (hl : s.Listing x) : s.procList.length < s.live.card := by
  have hnot : s.idleproc ∉ s.procList.toFinset := fun hmem ↦ hl.idle (List.mem_toFinset.mp hmem)
  have hsub : insert s.idleproc s.procList.toFinset ⊆ s.live := by
    intro p hp
    rw [Finset.mem_insert, List.mem_toFinset] at hp
    exact (hl.live p).mpr (hp.imp_right Or.inl)
  have hcard := Finset.card_le_card hsub
  rw [Finset.card_insert_of_notMem hnot, List.toFinset_card_of_nodup hl.nodup] at hcard
  exact hcard

/-! ## do_fork -/

/-- `alloc_proc`. -/
theorem NumbersOk.embryo (h : s.NumbersOk) (hp : p ∉ s.procList)
    (hroom : (s.embryo p).live.card < maxPid) : (s.embryo p).NumbersOk := by
  have hpid : ∀ q ∈ s.procList, (s.embryo p).proc q = s.proc q := by
    intro q hq
    refine embryo_proc_of_ne s ?_
    rintro rfl
    exact hp hq
  have hpids : (s.embryo p).pids = s.pids :=
    List.map_congr_left fun q hq ↦ congrArg Proc.pid (hpid q hq)
  refine ⟨fun q hq ↦ ?_, ?_, ?_, h.next_le, ?_, hroom⟩
  · rw [hpid q hq]
    exact h.hashed q hq
  · rw [hpids]
    exact h.nodup
  · rw [hpids]
    exact h.range
  · rw [hpids]
    exact h.window

/-- `get_pid` returns, with a number that no process carries, and the process is linked. -/
theorem NumbersOk.forkLink (h : s.NumbersOk) (hl : s.Listing (some p)) :
    ∃ t, (Ucore.forkLink p).run s = .ok () t ∧ t.procList = p :: s.procList ∧ t.NumbersOk := by
  obtain ⟨hpar, -⟩ := hl.held p rfl
  obtain ⟨hnot, -⟩ := hl.unborn p (.inr rfl)
  have hlen : s.pids.length + 1 < maxPid := by
    rw [pids, List.length_map]
    exact (Nat.succ_le_of_lt hl.length_lt).trans_lt h.room
  obtain ⟨r, hr⟩ := getPid_returns (s := ⟨s.lastPid, s.nextSafe, s.pids⟩) hlen
  obtain ⟨-, hpos, hlt, hnext, hclear⟩ := getPid_fresh hlen h.next_le h.window hr
  -- `get_pid` has stored its window, and the number it found goes into the structure
  set v := { s with lastPid := r.lastPid, nextSafe := r.nextSafe }.setProc p fun q ↦
    { q with pid := r.lastPid } with hv
  obtain ⟨f, hf⟩ := (v.hashProc p).setLinks_eq p s.current
  refine ⟨(v.hashProc p).setLinks p s.current, ?_, by rw [hf]; rfl, ?_⟩
  · have hr' : getPid (2 * maxPid) ⟨s.lastPid, s.nextSafe,
        s.procList.map fun q ↦ (s.proc q).pid⟩ = some r := hr
    rw [Ucore.forkLink, get_bind_run, hr', hpar]
    rfl
  have hself : (v.proc p).pid = r.lastPid := by rw [hv, setProc_self]
  have hother : ∀ q ∈ s.procList, (v.proc q).pid = (s.proc q).pid := by
    intro q hq
    rw [hv, setProc_of_ne]
    rintro rfl
    exact hnot hq
  set w := (v.hashProc p).setLinks p s.current with hw
  have hpid : ∀ q, (w.proc q).pid = (v.proc q).pid :=
    (v.hashProc p).setLinks_field (g := Proc.pid) p s.current (fun _ _ ↦ rfl)
      (fun _ _ ↦ rfl) fun _ _ ↦ rfl
  have hlist : w.procList = p :: s.procList := by rw [hf]; rfl
  have hpids : w.pids = r.lastPid :: s.pids := by
    rw [pids, hlist, List.map_cons, hpid, hself]
    exact congrArg _ (List.map_congr_left fun q hq ↦ (hpid q).trans (hother q hq))
  have hhash : ∀ b, w.hashList b =
      if b = pidHashfn r.lastPid then p :: s.hashList b else s.hashList b := by
    intro b
    rw [hf]
    change Function.update s.hashList (pidHashfn (v.proc p).pid) _ b = _
    rw [hself]
    by_cases hb : b = pidHashfn r.lastPid
    · rw [if_pos hb, hb, Function.update_self]
      rfl
    · rw [if_neg hb, Function.update_of_ne hb]
  refine ⟨fun q hq ↦ ?_, ?_, fun n hn ↦ ?_, ?_, fun n hn ↦ ?_, ?_⟩
  · rw [hpid, hhash]
    rw [hlist] at hq
    rcases List.mem_cons.mp hq with rfl | hq
    · rw [hself, if_pos rfl]
      exact List.mem_cons_self
    · rw [hother q hq]
      have hmem := h.hashed q hq
      split_ifs
      · exact List.mem_cons_of_mem p hmem
      · exact hmem
  · rw [hpids]
    exact List.nodup_cons.mpr ⟨fun hmem ↦ hclear _ hmem ⟨le_rfl, hlt⟩, h.nodup⟩
  · rw [hpids] at hn
    rcases List.mem_cons.mp hn with rfl | hn
    · exact ⟨hpos, hlt.trans_le hnext⟩
    · exact h.range n hn
  · rw [hf]
    exact hnext
  · rw [hpids] at hn
    -- the window begins behind the new number
    have hcount : w.lastPid = r.lastPid ∧ w.nextSafe = r.nextSafe := by
      rw [hf]
      exact ⟨rfl, rfl⟩
    rw [hcount.1, hcount.2]
    rcases List.mem_cons.mp hn with rfl | hn
    · exact fun hc ↦ Nat.not_succ_le_self _ hc.1
    · exact hclear.mono (Nat.le_succ _) le_rfl n hn
  · rw [hf]
    exact h.room

/-! ## do_wait -/

/-- A process is taken out of the hash table and off the lists, and its memory is freed. -/
theorem NumbersOk.reap (h : s.NumbersOk) (hnd : s.procList.Nodup) {c : ℕ} (hc : c ∈ s.procList) :
    (((s.unhashProc c).removeLinks c).kfreeProc c).NumbersOk := by
  obtain ⟨f, hf⟩ := (s.unhashProc c).removeLinks_run c
  set t := (s.unhashProc c).removeLinks c with ht
  have hpid : ∀ r, (t.proc r).pid = (s.proc r).pid :=
    (s.unhashProc c).unlink_field (g := Proc.pid) (fun _ _ ↦ rfl) (fun _ _ ↦ rfl)
      (fun _ _ ↦ rfl) c
  have hlist : t.procList = s.procList.erase c := by rw [hf]; rfl
  have hsub : t.pids.Sublist s.pids := by
    have hpids : t.pids = (s.procList.erase c).map fun p ↦ (s.proc p).pid := by
      rw [pids, hlist]
      exact List.map_congr_left fun p _ ↦ hpid p
    rw [hpids]
    exact List.erase_sublist.map _
  refine NumbersOk.congr ⟨fun q hq ↦ ?_, h.nodup.sublist hsub, fun n hn ↦ h.range n (hsub.mem hn),
    ?_, ?_, ?_⟩ (SameNumbers.kfreeProc t c)
  · rw [hlist] at hq
    have hq' : q ∈ s.procList := List.mem_of_mem_erase hq
    have hne : q ≠ c := by
      rintro rfl
      exact hnd.not_mem_erase hq
    have hmem := h.hashed q hq'
    rw [hpid]
    generalize pidHashfn (s.proc q).pid = b at hmem ⊢
    have hhash : t.hashList b = (s.unhashProc c).hashList b := by rw [hf]
    rw [hhash, unhashProc]
    by_cases hb : b = pidHashfn (s.proc c).pid
    · rw [hb] at hmem ⊢
      change q ∈ Function.update s.hashList (pidHashfn (s.proc c).pid) _ _
      rw [Function.update_self, List.mem_erase_of_ne hne]
      exact hmem
    · change q ∈ Function.update s.hashList (pidHashfn (s.proc c).pid) _ b
      rw [Function.update_of_ne hb]
      exact hmem
  · rw [hf]
    exact h.next_le
  · rw [hf] at hsub ⊢
    exact fun n hn ↦ h.window n (hsub.mem hn)
  · rw [hf]
    exact h.room

theorem NumbersOk.waitScan (h : s.NumbersOk) (htree : s.TreeOk none) (pid : ℕ) :
    ((Ucore.waitScan pid).run s).Sat (fun _ t ↦ t.NumbersOk) fun _ t ↦ t.NumbersOk := by
  rw [Ucore.waitScan, get_bind_run]
  cases htarget : s.waitTarget pid with
  | none => exact h
  | waiting =>
    dsimp only
    rw [modify_bind_run]
    refine h.congr (SameNumbers.trans (SameNumbers.of_kin ?_) (SameNumbers.push _ _))
    exact SameKin.setProc s s.current (f := fun q ↦ { q with state := .sleeping })
      (fun _ ↦ rfl) (fun _ ↦ rfl) (fun _ ↦ rfl) (fun _ ↦ rfl) (fun _ ↦ rfl)
      (fun hz ↦ absurd hz ProcState.noConfusion) fun _ ↦ .inr rfl
  | found c =>
    dsimp only
    rw [Ucore.waitFound, get_bind_run]
    refine sat_assert_bind fun _ ↦ ?_
    rw [modify_bind_run, modify_bind_run]
    exact (h.reap htree.listing.nodup (htree.found_listed htarget)).congr
      (SameNumbers.of_kin (SameKin.putKstack _ c))

/-! ## Every step -/

/-- The part of `do_fork` in which the process structure is made. -/
theorem NumbersOk.forkBegin (h : s.NumbersOk) {x : Option ℕ} (hl : s.Listing x)
    (hroom : s.nrProcess < maxProcess → s.live.card + 1 < maxPid) (flags : BitVec 32)
    (mem : ForkMem)
    (hfresh : ∀ p, mem.proc.addr = some p → p ∉ s.live) :
    ((Ucore.forkBegin flags mem).run s).Sat (fun _ t ↦ t.NumbersOk) fun _ t ↦ t.NumbersOk := by
  have hembryo : ∀ p u, mem.proc.addr = some p → s.nrProcess < maxProcess → SameKin s u →
      (u.embryo p).NumbersOk := by
    intro p u hp hmax hsame
    refine (h.congr (.of_kin hsame)).embryo ?_ ?_
    · rw [hsame.procList]
      exact fun hmem ↦ hfresh p hp ((hl.live p).mpr (.inr (.inl hmem)))
    · change (insert p u.live).card < maxPid
      rw [hsame.live]
      exact (Finset.card_insert_le _ _).trans_lt (hroom hmax)
  rw [Ucore.forkBegin]
  refine sat_bind (R := fun _ t ↦ t.NumbersOk) ((forkAlloc_kin mem s).imp (fun p t ht ↦ ?_)
    fun _ t ht ↦ ?_) fun p t ht ↦ ?_
  · obtain ⟨hp, hmax, u, hsame, -, hsame', -⟩ := ht
    exact (hembryo p u hp hmax hsame).congr (.of_kin hsame')
  · rcases ht with hsame | ⟨p, u, hp, hmax, hsame, -, hsame'⟩
    · exact h.congr (.of_kin hsame)
    · exact (hembryo p u hp hmax hsame).congr
        ((SameNumbers.kfreeProc _ p).trans (.of_kin hsame'))
  · refine sat_bind (R := fun _ u ↦ u.NumbersOk) (sat_onError
      ((SameKin.copyMmAlloc flags p mem t).imp (fun _ u hu ↦ ht.congr (.of_kin hu))
        fun _ u hu ↦ ht.congr (.of_kin hu)) fun _ u hu ↦ ?_) fun c u hu ↦ ?_
    · exact (SameNumbers.cleanup u p).imp (fun _ _ hs ↦ hu.congr hs) fun _ _ hf ↦ hf.elim
    · cases c with
      | done => exact hu.congr (SameNumbers.push u _)
      | dup m => exact hu.congr (SameNumbers.push u _)

/-- Every section keeps the numbers in order, and `get_pid` returns. -/
theorem RunOk.exec_numbers (h : s.RunOk) (ht : s.TreeKept) (hn : s.NumbersOk) {i : Section}
    {rest : List Section} (hcode : s.code s.current = i :: rest) (hC : ForksPublish s i)
    (hfresh : i.Fresh s) : (i.exec.run (s.setCode s.current rest)).Sat (fun _ t ↦ t.NumbersOk)
      fun _ t ↦ t.NumbersOk := by
  have hpop : (s.setCode s.current rest).NumbersOk := hn.congr (SameNumbers.setCode s _ rest)
  by_cases hkin : i.Kinless
  · exact (SameKin.exec hkin hC).imp (fun _ t hs ↦ hpop.congr (.of_kin hs))
      fun _ t hs ↦ hpop.congr (.of_kin hs)
  cases i with
  | schedule => exact hpop.congr (SameNumbers.schedule _)
  | waitScan pid =>
    exact hpop.waitScan (ht.congr (SameKin.pop hcode rfl) fun p hp ↦
      absurd hp (h.not_telling hcode Section.noConfusion p)).1 pid
  | waitSleep pid =>
    have hset := SameKin.setProc (s.setCode s.current rest) s.current
      (f := fun q ↦ { q with waitState := wtChild }) (fun _ ↦ rfl) (fun _ ↦ rfl) (fun _ ↦ rfl)
      (fun _ ↦ rfl) (fun _ ↦ rfl) id .inl
    exact (hpop.congr (.of_kin hset)).congr (SameNumbers.push _ _)
  | fork flags mem =>
    refine hpop.forkBegin (ht.1.listing.congr (SameKin.pop hcode rfl)) (fun hmax ↦ ?_) flags mem
      hfresh.1
    -- `do_fork` refuses at `MAX_PROCESS`, which is below `MAX_PID`
    have hcard := h.live_card ht.1.listing
    have hnum := ht.1.listing.num
    change s.live.card + 1 < maxPid
    change s.nrProcess < maxProcess at hmax
    rw [maxProcess_eq] at hmax
    rw [maxPid_eq]
    omega
  | forkDup flags p m mem =>
    refine hpop.congr (SameNumbers.trans (.of_kin ?_) (SameNumbers.push _ _))
    exact (SameKin.setMem _ _).trans (SameKin.setMem _ _)
  | forkMm flags p m mem =>
    refine sat_bind (R := fun _ u ↦ u.NumbersOk) (sat_onError
      ((SameKin.copyMmGood p m mem (s.setCode s.current rest)).imp
        (fun _ u hu ↦ hpop.congr (.of_kin hu)) fun _ u hu ↦ hpop.congr (.of_kin hu))
      fun _ u hu ↦ ?_) fun _ u hu ↦ hu.congr (SameNumbers.push u _)
    exact (SameNumbers.cleanup u p).imp (fun _ _ hs ↦ hu.congr hs) fun _ _ hf ↦ hf.elim
  | forkLink flags p mem =>
    obtain rfl := (h.pop hcode trivial Section.noConfusion).2 id
    have htree := ht.1.pop_linking hcode rfl (h.not_telling hcode Section.noConfusion)
    obtain ⟨t, hrun, -, hkept⟩ := hpop.forkLink htree.listing
    rw [Section.exec, run_bind, hrun]
    exact hkept.congr (SameNumbers.push t _)
  | exit code =>
    rw [Section.exec, Ucore.exitMm, get_bind_run]
    refine sat_assert_bind fun _ ↦ sat_assert_bind fun _ ↦ ?_
    refine sat_bind (R := fun _ t ↦ t.NumbersOk) ((SameKin.dropMm _).imp
      (fun _ t hs ↦ hpop.congr (.of_kin hs)) fun _ t hs ↦ hpop.congr (.of_kin hs)) fun _ t hs ↦ ?_
    exact hs.congr (SameNumbers.push t _)
  | exitZombie code =>
    have hpid := (s.setCode s.current rest).setProc_field (g := Proc.pid) s.current
      (f := fun q ↦ { q with state := .zombie, exitCode := code }) fun _ ↦ rfl
    exact hpop.congr ⟨rfl, rfl, ⟨rfl, rfl⟩, hpid, le_rfl⟩
  | exitTell =>
    exact (SameNumbers.exitTell _).imp (fun _ t hs ↦ hpop.congr hs) fun _ _ hf ↦ hf.elim
  | exited => trivial
  | _ => exact absurd trivial hkin

theorem NumbersOk.step (hn : s.NumbersOk) (ht : s.TreeKept) (h : s.RunOk) {events : List Event}
    (hstep : KStep ForksPublish s events t) : t.NumbersOk := by
  cases hstep with
  | interrupt hrun =>
    have hsame := SameKin.timerInterrupt s
    rw [hrun] at hsame
    exact hn.congr (.of_kin hsame)
  | call c hcode hidle => exact hn.congr (SameNumbers.setCode s _ _)
  | lock hcode hi => exact hn.congr (SameNumbers.setCode s _ _)
  | read hcode => exact hn.congr (SameNumbers.setCode s _ _)
  | run hcode hC hfresh hrun =>
    have hsat := h.exec_numbers ht hn hcode hC hfresh
    rw [hrun] at hsat
    exact hsat
  | fail hcode hC hfresh hrun =>
    have hsat := h.exec_numbers ht hn hcode hC hfresh
    rw [hrun] at hsat
    exact hsat

theorem NumbersOk.run (hn : s.NumbersOk) (ht : s.TreeKept) (h : s.RunOk) {events : List Event}
    (hrun : KRun ForksPublish s events t) : t.NumbersOk := by
  induction hrun with
  | refl => exact hn
  | tail hrun hstep ih => exact ih.step (ht.run h hrun) (h.run hrun) hstep

/-! ## Boot -/

theorem booting_numbers (value : ℕ → ℤ) (memory : Memory) (idle f page : ℕ) :
    (booting value memory idle f page).NumbersOk where
  hashed p hp := absurd hp List.not_mem_nil
  nodup := List.nodup_nil
  range n hn := absurd hn List.not_mem_nil
  next_le := le_rfl
  window n hn := absurd hn List.not_mem_nil
  room := by
    change (insert idle (∅ : Finset ℕ)).card < maxPid
    rw [maxPid_eq]
    exact (Finset.card_insert_le _ _).trans_lt (by decide)

theorem Booted.numbers {value : ℕ → ℤ} (h : Booted value s) : s.NumbersOk := by
  obtain ⟨idle, f, page, mem, memory, hidle, ⟨g, hg, -⟩, hrun⟩ := h
  obtain ⟨pid, u, q, hfork, -, -, rfl⟩ := procInit_eq hrun
  have hfiles : mem.files.addr ≠ none := by
    rw [hg]
    exact Option.some_ne_none g
  have hsat := doFork_kin cloneVm (.inr hfiles) (booting value memory idle f page)
  rw [hfork] at hsat
  obtain ⟨p, v, w, x, hp, hsame, hcode, hw, hx, hu⟩ := hsat
  obtain ⟨htree, hcalm⟩ := booting_tree value memory idle f page
  have hcodes : ∀ q, linking? (v.code q) = none := fun q ↦ by
    rw [hcode, booting_code, linking?_nil]
  have hlive : v.live = insert idle ∅ := hsame.live
  have hnot : p ∉ v.live := by
    rw [hlive, Finset.mem_insert, or_iff_left (Finset.notMem_empty p)]
    exact hidle p hp
  have hlist : p ∉ v.procList := by
    rw [hsame.procList]
    exact List.not_mem_nil
  have hnum := ((booting_numbers value memory idle f page).congr (.of_kin hsame)).embryo hlist (by
    change (insert p v.live).card < maxPid
    rw [hlive, maxPid_eq]
    exact (Finset.card_insert_le _ _).trans_lt (Nat.succ_lt_succ
      ((Finset.card_insert_le _ _).trans_lt (by decide))))
  have htree' := (htree.congr_calm hcalm hsame).embryo hnot (hcodes _) (hcodes p)
  have hlink := (htree'.congr_calm ((hcalm.congr hsame).embryo p) hw).listing
  obtain ⟨y, hy, -, hkept⟩ := (hnum.congr (.of_kin hw)).forkLink hlink
  rw [hx] at hy
  cases hy
  exact (hkept.congr (.of_kin hu)).congr ⟨rfl, rfl, ⟨rfl, rfl⟩, fun _ ↦ rfl, le_rfl⟩

/-! ## find_proc -/

/-- A listed process has its number to itself. -/
theorem NumbersOk.eq_of_pid (h : s.NumbersOk) {q : ℕ} (hp : p ∈ s.procList) (hq : q ∈ s.procList)
    (heq : (s.proc p).pid = (s.proc q).pid) : p = q :=
  List.inj_on_of_nodup_map h.nodup hp hq heq

theorem NumbersOk.findProc_eq_some (h : s.NumbersOk) {x : Option ℕ} (hl : s.Listing x) {n : ℕ} :
    s.findProc n = some p ↔ p ∈ s.procList ∧ (s.proc p).pid = n := by
  constructor
  · intro hfind
    rw [findProc] at hfind
    split_ifs at hfind
    have hpid := List.find?_some hfind
    rw [decide_eq_true_iff] at hpid
    exact ⟨(hl.hash _ p (List.mem_of_find?_eq_some hfind)).1, hpid⟩
  · rintro ⟨hp, rfl⟩
    obtain ⟨hpos, hlt⟩ := h.range (s.proc p).pid (List.mem_map.mpr ⟨p, hp, rfl⟩)
    rw [findProc, if_pos ⟨hpos, hlt⟩]
    cases hfind : (s.hashList (pidHashfn (s.proc p).pid)).find? fun q ↦
        (s.proc q).pid = (s.proc p).pid with
    | none =>
      have hnone := List.find?_eq_none.mp hfind p (h.hashed p hp)
      rw [decide_eq_true_iff] at hnone
      exact absurd rfl hnone
    | some q =>
      have hpid := List.find?_some hfind
      rw [decide_eq_true_iff] at hpid
      rw [h.eq_of_pid (hl.hash _ q (List.mem_of_find?_eq_some hfind)).1 hp hpid]

/-! ## do_wait -/

/-- A child that a call of `do_wait` is about. -/
def Awaits (s : Kernel) (pid c : ℕ) : Prop :=
  c ∈ s.procList ∧ (s.proc c).parent = some s.current ∧ (pid = 0 ∨ (s.proc c).pid = pid)

/-- What the scan of `do_wait` finds. -/
theorem NumbersOk.waitTarget_spec (h : s.NumbersOk) (ht : s.TreeOk none) (pid : ℕ) :
    match s.waitTarget pid with
    | .none => ∀ c, ¬s.Awaits pid c
    | .waiting => (∃ c, s.Awaits pid c) ∧ ∀ c, s.Awaits pid c → (s.proc c).state ≠ .zombie
    | .found c => s.Awaits pid c ∧ (s.proc c).state = .zombie := by
  by_cases hpid : pid = 0
  -- any child: the loop goes through the children
  · obtain ⟨kids, hk⟩ := ht.kids
    have hkid : ∀ c, s.Awaits pid c ↔ c ∈ kids s.current := fun c ↦ by
      rw [hk.mem]
      exact ⟨fun hc ↦ ⟨hc.1, hc.2.1⟩, fun hc ↦ ⟨hc.1, hc.2, .inl hpid⟩⟩
    simp only [hkid]
    rw [hpid, ht.waitTarget_zero hk]
    cases hfind : (kids s.current).find? fun c ↦ (s.proc c).state = .zombie with
    | none =>
      rw [Option.elim_none]
      by_cases hnil : kids s.current = []
      · rw [if_pos hnil]
        intro c hc
        rw [hnil] at hc
        exact List.not_mem_nil hc
      · rw [if_neg hnil]
        refine ⟨List.exists_mem_of_ne_nil _ hnil, fun c hc ↦ ?_⟩
        have hnot := List.find?_eq_none.mp hfind c hc
        rwa [decide_eq_true_iff] at hnot
    | some c =>
      have hz := List.find?_some hfind
      rw [decide_eq_true_iff] at hz
      exact ⟨List.mem_of_find?_eq_some hfind, hz⟩
  -- one number: `find_proc` knows the only candidate
  · have hmatch : ∀ c, s.Awaits pid c ↔ s.findProc pid = some c ∧
        (s.proc c).parent = some s.current := fun c ↦ by
      rw [h.findProc_eq_some ht.listing]
      exact ⟨fun hc ↦ ⟨⟨hc.1, hc.2.2.resolve_left hpid⟩, hc.2.1⟩,
        fun hc ↦ ⟨hc.1.1, hc.2, .inr hc.1.2⟩⟩
    simp only [hmatch]
    rw [waitTarget, if_pos hpid]
    cases hfind : s.findProc pid with
    | none => exact fun c hc ↦ Option.some_ne_none c hc.1.symm
    | some d =>
      dsimp only
      by_cases hpar : (s.proc d).parent = some s.current
      · rw [if_pos hpar]
        by_cases hz : (s.proc d).state = .zombie
        · rw [if_pos hz]
          exact ⟨⟨rfl, hpar⟩, hz⟩
        · rw [if_neg hz]
          refine ⟨⟨d, rfl, hpar⟩, ?_⟩
          rintro c ⟨hc, -⟩
          rwa [← Option.some.inj hc]
      · rw [if_neg hpar]
        rintro c ⟨hc, hcpar⟩
        rw [← Option.some.inj hc] at hcpar
        exact hpar hcpar

end Kernel

/-! ## Main results -/

section

variable {value : ℕ → ℤ} {s t : Kernel} {events : List Event}

/-- In every state of every run from boot on in which the calls of `do_fork` that reach `copy_files`
succeed, the listed processes have different numbers in `[1, MAX_PID)`, `find_proc` finds exactly
the listed process with a number, and `nr_process` stays below `MAX_PID`; and where `do_fork` links
a process, `get_pid` returns, with a number that no listed process has. -/
theorem findProc_exact (hboot : Booted value s) (hrun : KRun ForksPublish s events t) :
    (∀ p ∈ t.procList, 1 ≤ (t.proc p).pid ∧ (t.proc p).pid < maxPid) ∧
      (∀ p ∈ t.procList, ∀ q ∈ t.procList, (t.proc p).pid = (t.proc q).pid → p = q) ∧
      (∀ n p, t.findProc n = some p ↔ p ∈ t.procList ∧ (t.proc p).pid = n) ∧
      t.nrProcess < maxPid ∧
      ∀ flags p mem rest, t.code t.current = .forkLink flags p mem :: rest →
        ∃ u, (forkLink p).run (t.setCode t.current rest) = .ok () u ∧
          ∀ q ∈ t.procList, (u.proc q).pid ≠ (u.proc p).pid := by
  obtain ⟨htree, hok⟩ := treeKept_of_run hboot hrun
  have hn := (Kernel.Booted.numbers hboot).run (Kernel.Booted.treeKept hboot)
    (Kernel.Booted.runOk hboot) hrun
  have hl := htree.1.listing
  refine ⟨fun p hp ↦ hn.range _ (List.mem_map.mpr ⟨p, hp, rfl⟩), fun p hp q hq ↦ hn.eq_of_pid hp hq,
    fun n p ↦ hn.findProc_eq_some hl, ?_, fun flags p mem rest hcode ↦ ?_⟩
  · rw [hl.num]
    exact (Nat.succ_le_of_lt hl.length_lt).trans_lt hn.room
  · obtain rfl := (hok.pop hcode trivial Section.noConfusion).2 id
    have hpop := htree.1.pop_linking hcode rfl (hok.not_telling hcode Section.noConfusion)
    obtain ⟨u, hrun, hlist, hkept⟩ :=
      (hn.congr (Kernel.SameNumbers.setCode t t.current [])).forkLink hpop.listing
    have hnot := (hpop.listing.unborn p (.inr rfl)).1
    refine ⟨u, hrun, fun q hq heq ↦ ?_⟩
    rw [hkept.eq_of_pid (hlist ▸ List.mem_cons_of_mem p hq) (hlist ▸ List.mem_cons_self) heq] at hq
    exact hnot hq

/-- In every such state in which a process is about to look for a child in `do_wait`, the call fails
when it has no child that it may wait for, takes one that has exited when there is one and delivers
its exit code, after which the child is in no list and not in the hash table and its memory is
free, and otherwise sleeps. -/
theorem doWait_exact (hboot : Booted value s) (hrun : KRun ForksPublish s events t) {pid : ℕ}
    {rest : List Section} (hcode : t.code t.current = .waitScan pid :: rest) :
    (∃ u, (waitScan pid).run (t.setCode t.current rest) = .error .badProc u ∧
        ∀ c, ¬t.Awaits pid c) ∨
      (∃ u, (waitScan pid).run (t.setCode t.current rest) = .ok [] u ∧
        (u.proc t.current).state = .sleeping ∧ (∃ c, t.Awaits pid c) ∧
          ∀ c, t.Awaits pid c → (t.proc c).state ≠ .zombie) ∨
      ∃ c u, (waitScan pid).run (t.setCode t.current rest) =
          .ok [.deliver t.current c (t.proc c).exitCode] u ∧ t.Awaits pid c ∧
        (t.proc c).state = .zombie ∧ c ∉ u.procList ∧ c ∉ u.live ∧ ∀ n, u.findProc n ≠ some c := by
  obtain ⟨htree, hok⟩ := treeKept_of_run hboot hrun
  have hn := (Kernel.Booted.numbers hboot).run (Kernel.Booted.treeKept hboot)
    (Kernel.Booted.runOk hboot) hrun
  set v := t.setCode t.current rest with hv
  have hkept : v.TreeKept := htree.congr (SameKin.pop hcode rfl) fun p hp ↦
    absurd hp (hok.not_telling hcode Section.noConfusion p)
  have hnv : v.NumbersOk := hn.congr (Kernel.SameNumbers.setCode t t.current rest)
  have hspec := hnv.waitTarget_spec hkept.1 pid
  cases htarget : v.waitTarget pid with
  | none =>
    rw [htarget] at hspec
    refine .inl ⟨v, ?_, hspec⟩
    rw [waitScan, get_bind_run, htarget]
    rfl
  | waiting =>
    rw [htarget] at hspec
    refine .inr (.inl ⟨(v.setProc v.current fun q ↦ { q with state := .sleeping }).push
      [.waitSleep pid], ?_, ?_, hspec⟩)
    · rw [waitScan, get_bind_run, htarget]
      rfl
    · change ((v.setProc v.current fun q ↦ { q with state := .sleeping }).proc v.current).state = _
      rw [Kernel.setProc_self]
  | found c =>
    rw [htarget] at hspec
    obtain ⟨hawaits, hz⟩ := hspec
    have hidle : c ≠ v.idleproc := by
      rintro rfl
      exact hkept.1.listing.idle hawaits.1
    -- `initproc` never becomes a zombie
    have hinit : c ≠ v.initproc := by
      rintro rfl
      exact hkept.2.alive hz
    set w := (v.unhashProc c).removeLinks c with hw
    have hrun' : (waitScan pid).run v =
        .ok [.deliver t.current c (t.proc c).exitCode] ((w.putKstack c).kfreeProc c) := by
      rw [waitScan, get_bind_run, htarget]
      dsimp only
      rw [waitFound, get_bind_run, assert_bind_run ⟨hidle, hinit⟩, modify_bind_run, modify_bind_run]
      rfl
    have hlist : c ∉ ((w.putKstack c).kfreeProc c).procList := by
      obtain ⟨f, hf⟩ := (v.unhashProc c).removeLinks_run c
      rw [(Kernel.SameKin.putKstack w c).procList, hw, hf]
      exact hkept.1.listing.nodup.not_mem_erase
    have htree' := hok.exec_tree htree hcode trivial trivial
    have hnum := hok.exec_numbers htree hn hcode trivial trivial
    rw [Section.exec, hrun'] at htree' hnum
    refine .inr (.inr ⟨c, _, hrun', hawaits, hz, hlist, Finset.notMem_erase c _, fun n hfind ↦ ?_⟩)
    exact hlist ((Kernel.NumbersOk.findProc_eq_some hnum htree'.1.listing).mp hfind).1

/-- The number that a section looks for. -/
def Section.scans? : Section → Option ℕ
  | .waitScan pid => some pid
  | _ => none

theorem Section.exists_waitScan {l : List Section} {pid : ℕ} (h : l.head?.bind scans? = some pid) :
    ∃ rest, l = .waitScan pid :: rest := by
  cases l with
  | nil => cases h
  | cons i rest =>
    refine ⟨rest, ?_⟩
    cases i <;> cases h
    rfl

/-- `initproc` is 2 and makes the process 3, which gets the number 2. -/
theorem findProc_exact_sample : ∃ s events t, Booted (fun _ ↦ 1) s ∧ KRun ForksPublish s events t ∧
    t.findProc 2 = some 3 := by
  have hrun : (followBoot ForksPublish (sampleBoot fun _ ↦ 1)
      [.call .schedule, .run, .call (.fork 0 (sampleFork 3 3 3)), .run, .run, .run, .run]).map
      (fun r ↦ (r.2.procList, (r.2.proc 3).pid)) = some ([3, 2], 2) := by decide +kernel
  obtain ⟨⟨events, t⟩, hfollow, hfacts⟩ := Option.map_eq_some_iff.mp hrun
  obtain ⟨s, hboot, hkrun⟩ := followBoot_krun hfollow
  obtain ⟨hlist, hpid⟩ := Prod.mk.inj hfacts
  dsimp only at hlist hpid
  have hmem : 3 ∈ t.procList := hlist ▸ List.mem_cons_self
  exact ⟨s, events, t, hboot, hkrun, ((findProc_exact hboot hkrun).2.2.1 2 3).mpr ⟨hmem, hpid⟩⟩

/-- `initproc` waits for any child, of which one has exited. -/
theorem doWait_exact_sample : ∃ s events t, Booted (fun _ ↦ 1) s ∧ KRun ForksPublish s events t ∧
    ∃ rest c u, (waitScan 0).run (t.setCode t.current rest) =
        .ok [.deliver t.current c (t.proc c).exitCode] u ∧ t.Awaits 0 c ∧ c ∉ u.live := by
  have hrun : (followBoot ForksPublish (sampleBoot fun _ ↦ 1)
      [.call .schedule, .run, .call (.fork 0 (sampleFork 3 3 3)), .run, .run, .run, .run,
        .call (.fork 0 (sampleFork 4 4 4)), .run, .run, .run, .run, .call (.wait 0), .run, .run,
        .run, .call (.exit 7), .run, .run, .run, .run, .run]).map
      (fun r ↦ (r.2.procList, (r.2.proc 4).parent, r.2.current, (r.2.proc 4).state,
        (r.2.code r.2.current).head?.bind Section.scans?)) =
          some ([4, 3, 2], some 2, 2, .zombie, some 0) := by decide +kernel
  obtain ⟨⟨events, t⟩, hfollow, hfacts⟩ := Option.map_eq_some_iff.mp hrun
  obtain ⟨s, hboot, hkrun⟩ := followBoot_krun hfollow
  obtain ⟨hlist, hrest⟩ := Prod.mk.inj hfacts
  obtain ⟨hpar, hrest⟩ := Prod.mk.inj hrest
  obtain ⟨hcur, hrest⟩ := Prod.mk.inj hrest
  obtain ⟨hz, hscan⟩ := Prod.mk.inj hrest
  dsimp only at hlist hpar hcur hz hscan
  obtain ⟨rest, hcode⟩ := Section.exists_waitScan hscan
  have hawaits : t.Awaits 0 4 := ⟨hlist ▸ List.mem_cons_self, hcur ▸ hpar, .inl rfl⟩
  rcases doWait_exact hboot hkrun hcode with ⟨u, -, hnone⟩ | ⟨u, -, -, -, hnone⟩ | hfound
  · exact absurd hawaits (hnone 4)
  · exact absurd hz (hnone 4 hawaits)
  · obtain ⟨c, u, hscan, hc, -, -, hlive, -⟩ := hfound
    exact ⟨s, events, t, hboot, hkrun, rest, c, u, hscan, hc, hlive⟩

end

end Ucore
