import Mathlib.Data.List.ReduceOption
import Mathlib.Data.List.Rotate
import Ucore.Lib.Ring
import Ucore.Proc.Kernel

/-!
# The scheduler that walks the list of processes

`schedule` of lab5's `kern/schedule/sched.c`: the list of processes is searched in a circle, from
the running process on or, for `idleproc`, from the head of the list. The head is a link like the
others, but there is no process around it.

The main result is `CircList.schedule_next_runnable`: the loop ends, and it finds the first process
that can run in the order of the circle, which has the running process last.
-/

namespace Ucore

/-- What `schedule` works on. A link is `none` for `&proc_list` and `some p` for the `list_link` of
process `p`. -/
structure CircSched (α : Type*) where
  links : Links (Option α)
  state : α → ProcState
  needResched : α → Bool
  runs : α → ℕ
  current : α
  idleproc : α

namespace CircSched

variable {α : Type*} [DecidableEq α] (s : CircSched α)

/-- The process is in state `PROC_RUNNABLE`. -/
def Runnable (p : α) : Prop := s.state p = .runnable

instance : DecidablePred s.Runnable := fun p ↦ inferInstanceAs (Decidable (s.state p = .runnable))

def procRun (next : α) : CircSched α := { s with current := next }

/-- The loop of `schedule` that is at the link `le`, with `next` the process looked at before; the
outcome is `next` behind the loop, and no outcome after the given number of rounds is `none`. -/
def searchLoop (last : Option α) : ℕ → Option α → Option α → Option (Option α)
  | 0, _, _ => none
  | fuel + 1, le, next =>
    let le := s.links.next le
    match le with
    | some p =>
      if s.Runnable p then some (some p)
      else if le ≠ last then searchLoop last fuel le (some p)
      else some (some p)
    | none =>
      if le ≠ last then searchLoop last fuel le next
      else some next

/-- What is made of `next` behind the loop. -/
def orIdle : Option α → α
  | none => s.idleproc
  | some p => if s.Runnable p then p else s.idleproc

/-- `schedule`, with a number of rounds for the loop. -/
def schedule (fuel : ℕ) : Option (CircSched α) := do
  let s := { s with needResched := Function.update s.needResched s.current false }
  let last := if s.current = s.idleproc then none else some s.current
  let next ← s.searchLoop last fuel last none
  let next := s.orIdle next
  let s := { s with runs := Function.update s.runs next (s.runs next + 1) }
  if next ≠ s.current then some (s.procRun next) else some s

/-- The processes in the order in which they are considered. -/
def circularOrder (procs : List α) : List α :=
  if s.current = s.idleproc then procs else procs.rotate (procs.idxOf s.current + 1)

/-- The first process of a list that can run, or `idleproc`. -/
def firstRunnable (ps : List α) : α := (ps.find? fun p ↦ s.Runnable p).getD s.idleproc

/-- The processes `procs` are on the list, in this order; `idleproc` is never put there, and any
other process is there while it runs. -/
structure CircList (s : CircSched α) (procs : List α) : Prop where
  ring : s.links.Ring none (procs.map some)
  idle : s.idleproc ∉ procs
  current : s.current = s.idleproc ∨ s.current ∈ procs

variable {s}

/-! ## The loop -/

omit [DecidableEq α] in
theorem firstRunnable_cons_of_runnable {p : α} (h : s.Runnable p) (ps : List α) :
    s.firstRunnable (p :: ps) = p := by
  rw [firstRunnable, List.find?_cons_of_pos (by simpa using h), Option.getD_some]

omit [DecidableEq α] in
theorem firstRunnable_cons_of_not {p : α} (h : ¬s.Runnable p) (ps : List α) :
    s.firstRunnable (p :: ps) = s.firstRunnable ps := by
  rw [firstRunnable, List.find?_cons_of_neg (by simpa using h), firstRunnable]

omit [DecidableEq α] in
theorem orIdle_of_runnable {p : α} (h : s.Runnable p) : s.orIdle (some p) = p := if_pos h

omit [DecidableEq α] in
theorem orIdle_of_not {p : α} (h : ¬s.Runnable p) : s.orIdle (some p) = s.idleproc := if_neg h

/-- From a link on, the loop takes the first process that can run up to the link `last`, as long as
it has not seen one that can. -/
theorem searchLoop_eq {last : Option α} {zs : List (Option α)} (hlast : last ∉ zs) {le : Option α}
    (hchain : s.links.Chain le zs last) {next : Option α} (hnext : s.orIdle next = s.idleproc)
    {fuel : ℕ} (hfuel : zs.length < fuel) :
    (s.searchLoop last fuel le next).map s.orIdle
      = some (s.firstRunnable (zs ++ [last]).reduceOption) := by
  induction zs generalizing le next fuel with
  | nil =>
    obtain ⟨fuel, rfl⟩ := Nat.exists_eq_succ_of_ne_zero (Nat.ne_of_gt hfuel)
    rw [searchLoop, hchain.next_eq]
    cases last with
    | none =>
      simp only [List.headD_nil, ne_eq, not_true_eq_false, if_false, Option.map_some, hnext]
      rfl
    | some p =>
      simp only [List.headD_nil, ne_eq, not_true_eq_false, if_false, List.nil_append,
        List.reduceOption_singleton, Option.toList_some]
      by_cases hp : s.Runnable p
      · rw [if_pos hp, Option.map_some, orIdle_of_runnable hp, firstRunnable_cons_of_runnable hp]
      · rw [if_neg hp, Option.map_some, orIdle_of_not hp, firstRunnable_cons_of_not hp]
        rfl
  | cons z zs ih =>
    obtain ⟨fuel, rfl⟩ := Nat.exists_eq_succ_of_ne_zero (Nat.ne_of_gt (Nat.zero_lt_of_lt hfuel))
    have hz : z ≠ last := fun heq ↦ hlast (heq ▸ List.mem_cons_self)
    have hrest : last ∉ zs := fun hmem ↦ hlast (List.mem_cons_of_mem z hmem)
    have hlen : zs.length < fuel := Nat.lt_of_succ_lt_succ hfuel
    rw [searchLoop, hchain.next_eq, List.cons_append]
    cases z with
    | none =>
      -- the head of the list is passed over
      simp only [List.headD_cons, ne_eq, hz, not_false_eq_true, if_true,
        List.reduceOption_cons_of_none]
      exact ih hrest hchain.2.2 hnext hlen
    | some p =>
      simp only [List.headD_cons, ne_eq, hz, not_false_eq_true, if_true,
        List.reduceOption_cons_of_some]
      by_cases hp : s.Runnable p
      · rw [if_pos hp, Option.map_some, orIdle_of_runnable hp, firstRunnable_cons_of_runnable hp]
      · rw [if_neg hp, firstRunnable_cons_of_not hp]
        exact ih hrest hchain.2.2 (orIdle_of_not hp) hlen

/-! ## The circle -/

omit [DecidableEq α] in
theorem reduceOption_map_some (ps : List α) : (ps.map some).reduceOption = ps := by
  induction ps with
  | nil => rfl
  | cons p ps ih => rw [List.map_cons, List.reduceOption_cons_of_some, ih]

/-- Behind a member of a list come those that follow it, and then those in front of it. -/
theorem rotate_idxOf {c : α} {xs ys : List α} (hc : c ∉ xs) :
    (xs ++ c :: ys).rotate ((xs ++ c :: ys).idxOf c + 1) = ys ++ xs ++ [c] := by
  have hidx : (xs ++ c :: ys).idxOf c = xs.length := by
    rw [List.idxOf_append_of_notMem hc, List.idxOf_cons_self, Nat.add_zero]
  have hlen : xs.length + 1 = (xs ++ [c]).length := by
    rw [List.length_append, List.length_singleton]
  have hsplit : xs ++ c :: ys = (xs ++ [c]) ++ ys := by
    rw [List.append_assoc, List.singleton_append]
  rw [hidx, hlen, hsplit, List.rotate_append_length_eq, List.append_assoc]

namespace CircList

variable {procs : List α}

/-- The links from where the search starts back to there, and the processes on the way. -/
theorem exists_chain (h : CircList s procs) :
    ∃ zs, (if s.current = s.idleproc then none else some s.current) ∉ zs ∧
      s.links.Chain (if s.current = s.idleproc then none else some s.current) zs
        (if s.current = s.idleproc then none else some s.current) ∧
      zs.length ≤ procs.length ∧
      (zs ++ [if s.current = s.idleproc then none else some s.current]).reduceOption
        = s.circularOrder procs := by
  by_cases hidle : s.current = s.idleproc
  · refine ⟨procs.map some, ?_, ?_, ?_, ?_⟩
    · rw [if_pos hidle]
      exact (List.nodup_cons.mp h.ring.nodup).1
    · rw [if_pos hidle]
      exact h.ring.chain
    · rw [List.length_map]
    · rw [if_pos hidle, circularOrder, if_pos hidle, List.reduceOption_append,
        reduceOption_map_some]
      exact List.append_nil _
  · obtain ⟨xs, ys, hprocs⟩ := List.append_of_mem (h.current.resolve_left hidle)
    have hring := h.ring
    rw [hprocs, List.map_append, List.map_cons] at hring
    have hcur : s.current ∉ xs := by
      have hnodup := (List.nodup_cons.mp h.ring.nodup).2.of_map some
      rw [hprocs, List.nodup_append] at hnodup
      exact fun hmem ↦ hnodup.2.2 _ hmem _ List.mem_cons_self rfl
    refine ⟨ys.map some ++ none :: xs.map some, ?_, ?_, ?_, ?_⟩
    · rw [if_neg hidle]
      exact (List.nodup_cons.mp hring.rotate.nodup).1
    · rw [if_neg hidle]
      exact hring.rotate.chain
    · rw [hprocs]
      simp only [List.length_append, List.length_map, List.length_cons]
      exact le_of_eq (by omega)
    · rw [if_neg hidle, circularOrder, if_neg hidle, hprocs, rotate_idxOf hcur,
        List.reduceOption_append, List.reduceOption_append, List.reduceOption_cons_of_none,
        reduceOption_map_some, reduceOption_map_some]
      rfl

theorem mem_circularOrder {p : α} :
    p ∈ s.circularOrder procs ↔ p ∈ procs := by
  rw [circularOrder]
  split
  · exact Iff.rfl
  · exact List.mem_rotate

theorem firstRunnable_eq_idleproc (h : CircList s procs) :
    s.firstRunnable (s.circularOrder procs) = s.idleproc ↔ ∀ p ∈ procs, ¬s.Runnable p := by
  rw [firstRunnable]
  cases hfind : (s.circularOrder procs).find? fun p ↦ decide (s.Runnable p) with
  | none =>
    refine iff_of_true rfl fun p hp ↦ ?_
    simpa using List.find?_eq_none.mp hfind p (mem_circularOrder.mpr hp)
  | some p =>
    -- a process that was found is on the list, where `idleproc` is not
    have hmem : p ∈ procs := mem_circularOrder.mp (List.mem_of_find?_eq_some hfind)
    refine iff_of_false ?_ fun hall ↦ hall p hmem (by simpa using List.find?_some hfind)
    rintro rfl
    exact h.idle hmem

/-- `schedule` ends, and it switches to the first process in the order of the circle that can run,
to `idleproc` exactly when no process of the list can. -/
theorem schedule_next_runnable (h : CircList s procs) :
    ∃ rounds, ∀ fuel, rounds ≤ fuel → ∃ s', s.schedule fuel = some s' ∧
      s'.current = s.firstRunnable (s.circularOrder procs) ∧
      (s'.current = s.idleproc ↔ ∀ p ∈ procs, s.state p ≠ .runnable) := by
  -- the flag of the running process has no part in the search
  have h₁ : CircList { s with needResched := Function.update s.needResched s.current false }
      procs := ⟨h.ring, h.idle, h.current⟩
  obtain ⟨zs, hmem, hchain, hlen, horder⟩ := h₁.exists_chain
  refine ⟨procs.length + 1, fun fuel hfuel ↦ ?_⟩
  have hloop := @searchLoop_eq _ _ _ _ _ hmem _ hchain none rfl fuel
    (lt_of_le_of_lt hlen hfuel)
  obtain ⟨next, hnext, hpick⟩ := Option.map_eq_some_iff.mp hloop
  rw [horder] at hpick
  have hcurrent : ∃ s', s.schedule fuel = some s' ∧
      s'.current = s.firstRunnable (s.circularOrder procs) := by
    rw [schedule, hnext, Option.bind_eq_bind, Option.bind_some]
    simp only [hpick]
    split
    · exact ⟨_, rfl, rfl⟩
    · rename_i hsame
      exact ⟨_, rfl, (not_not.mp hsame).symm⟩
  obtain ⟨s', hrun, hs'⟩ := hcurrent
  exact ⟨s', hrun, hs', hs' ▸ h.firstRunnable_eq_idleproc⟩

end CircList

/-- Two processes that wait for `idleproc` to let them run. -/
def twoProcs : CircSched ℕ where
  links :=
    { next := fun l ↦ if l = none then some 1 else if l = some 1 then some 2 else none
      prev := fun l ↦ if l = none then some 2 else if l = some 2 then some 1 else none }
  state p := if p = 1 then .sleeping else .runnable
  needResched _ := true
  runs _ := 0
  current := 0
  idleproc := 0

theorem circList_twoProcs : CircList twoProcs [1, 2] where
  ring := ⟨by decide, by simp [twoProcs]⟩
  idle := by decide
  current := .inl rfl

/-- The one of two processes that can run is taken. -/
theorem schedule_twoProcs : ∃ rounds, ∀ fuel, rounds ≤ fuel →
    ∃ s', twoProcs.schedule fuel = some s' ∧ s'.current = 2 := by
  obtain ⟨rounds, hrun⟩ := circList_twoProcs.schedule_next_runnable
  refine ⟨rounds, fun fuel hfuel ↦ ?_⟩
  obtain ⟨s', hs', hcurrent, -⟩ := hrun fuel hfuel
  exact ⟨s', hs', hcurrent.trans (by decide)⟩

end CircSched

end Ucore
