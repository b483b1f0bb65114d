import Mathlib.Tactic
import Mathlib.Data.Finset.Card
import Mathlib.Data.Finset.Interval
import Mathlib.Logic.Relation

/-!
# Process numbers

`get_pid` of `kern/process/proc.c` with its two static variables. Between two calls of it processes
come and go; `proc_list` is the list of their numbers, in the order of the list. The loop behind the
label `repeat` is run a given number of times at most, and `none` is the outcome of a call that is
still in it.
-/

namespace Ucore

def maxProcess : ℕ := 4096

def maxPid : ℕ := maxProcess * 2

@[simp] theorem maxProcess_eq : maxProcess = 4096 := rfl

@[simp] theorem maxPid_eq : maxPid = 8192 := rfl

/-- `last_pid` and `next_safe`, and the numbers on `proc_list`. -/
structure PidState where
  lastPid : ℕ
  nextSafe : ℕ
  pids : List ℕ

/-- How a scan of `proc_list` ends: at the end of the list, or with `goto repeat`. -/
inductive ScanEnd
  | done (lastPid nextSafe : ℕ)
  | again (lastPid : ℕ)
  deriving DecidableEq, Repr

/-- The inner loop of `get_pid`. -/
def getPidScan : List ℕ → ℕ → ℕ → ScanEnd
  | [], lastPid, nextSafe => .done lastPid nextSafe
  | pid :: list, lastPid, nextSafe =>
    if pid = lastPid then
      if nextSafe ≤ lastPid + 1 then
        .again (if maxPid ≤ lastPid + 1 then 1 else lastPid + 1)
      else getPidScan list (lastPid + 1) nextSafe
    else if lastPid < pid ∧ pid < nextSafe then getPidScan list lastPid pid
    else getPidScan list lastPid nextSafe

/-- The part of `get_pid` from the label `inside` on. -/
def getPidInside (pids : List ℕ) (lastPid : ℕ) : ℕ → Option (ℕ × ℕ)
  | 0 => none
  | fuel + 1 =>
    match getPidScan pids lastPid maxPid with
    | .done lastPid nextSafe => some (lastPid, nextSafe)
    | .again lastPid => getPidInside pids lastPid fuel

/-- `get_pid`: the number it returns is `lastPid` of the new state. -/
def getPid (fuel : ℕ) (s : PidState) : Option PidState :=
  if maxPid ≤ s.lastPid + 1 then
    (getPidInside s.pids 1 fuel).map fun r ↦ ⟨r.1, r.2, s.pids⟩
  else if s.nextSafe ≤ s.lastPid + 1 then
    (getPidInside s.pids (s.lastPid + 1) fuel).map fun r ↦ ⟨r.1, r.2, s.pids⟩
  else some { s with lastPid := s.lastPid + 1 }

/-! ## One scan -/

section Scan

variable {list done : List ℕ} {lastPid nextSafe : ℕ}

/-- None of the numbers lies in the window, the lower end included. -/
def Clear (pids : List ℕ) (lastPid nextSafe : ℕ) : Prop :=
  ∀ p ∈ pids, ¬(lastPid ≤ p ∧ p < nextSafe)

theorem Clear.mono {pids : List ℕ} {a b : ℕ} (h : Clear pids lastPid nextSafe) (ha : lastPid ≤ a)
    (hb : b ≤ nextSafe) : Clear pids a b := fun p hp hab ↦
    h p hp ⟨ha.trans hab.1, hab.2.trans_le hb⟩

theorem clear_nil (lastPid nextSafe : ℕ) : Clear [] lastPid nextSafe :=
  fun _ hp ↦ absurd hp List.not_mem_nil

theorem Clear.concat {pids : List ℕ} {p : ℕ} (h : Clear pids lastPid nextSafe)
    (hp : ¬(lastPid ≤ p ∧ p < nextSafe)) : Clear (pids ++ [p]) lastPid nextSafe := by
  intro q hq
  rcases List.mem_append.mp hq with hq | hq
  · exact h q hq
  · rw [List.mem_singleton.mp hq]
    exact hp

/-- A scan that reaches the end leaves a window with none of the numbers in it. `done` is the part
of the list that was scanned. -/
theorem getPidScan_done {last' next' : ℕ} (h : getPidScan list lastPid nextSafe = .done last' next')
    (hlt : lastPid < nextSafe) (hclear : Clear done lastPid nextSafe) :
    lastPid ≤ last' ∧ last' < next' ∧ next' ≤ nextSafe ∧ Clear (done ++ list) last' next' := by
  induction list generalizing done lastPid nextSafe with
  | nil =>
    rw [getPidScan] at h
    cases h
    rw [List.append_nil]
    exact ⟨le_rfl, hlt, le_rfl, hclear⟩
  | cons p list ih =>
    rw [getPidScan] at h
    rw [List.append_cons]
    by_cases hp : p = lastPid
    · rw [if_pos hp] at h
      by_cases hend : nextSafe ≤ lastPid + 1
      · rw [if_pos hend] at h
        cases h
      · rw [if_neg hend] at h
        have hclear' : Clear (done ++ [p]) (lastPid + 1) nextSafe :=
          (hclear.mono (Nat.le_succ _) le_rfl).concat fun hc ↦ by omega
        obtain ⟨h₁, h₂, h₃, h₄⟩ := ih h (by omega) hclear'
        exact ⟨by omega, h₂, h₃, h₄⟩
    · rw [if_neg hp] at h
      by_cases hin : lastPid < p ∧ p < nextSafe
      · rw [if_pos hin] at h
        have hclear' : Clear (done ++ [p]) lastPid p :=
          (hclear.mono le_rfl hin.2.le).concat fun hc ↦ lt_irrefl _ hc.2
        obtain ⟨h₁, h₂, h₃, h₄⟩ := ih h hin.1 hclear'
        exact ⟨h₁, h₂, h₃.trans hin.2.le, h₄⟩
      · rw [if_neg hin] at h
        exact ih h hlt (hclear.concat fun hc ↦ hin ⟨lt_of_le_of_ne hc.1 (Ne.symm hp), hc.2⟩)

/-- How far `lastPid` is from `u`, going up and starting again at 1. -/
def pidDist (u lastPid : ℕ) : ℕ := if lastPid ≤ u then u - lastPid else maxPid - lastPid + u

theorem pidDist_succ {u : ℕ} (hne : u ≠ lastPid) (hlt : lastPid + 1 < maxPid) :
    pidDist u (lastPid + 1) < pidDist u lastPid := by
  rw [maxPid_eq] at hlt
  rw [pidDist, pidDist, maxPid_eq]
  split_ifs <;> omega

theorem pidDist_one {u : ℕ} (hne : u ≠ lastPid) (hu₁ : 1 ≤ u) (hu : u < maxPid)
    (hlt : lastPid < maxPid) (hend : maxPid ≤ lastPid + 1) : pidDist u 1 < pidDist u lastPid := by
  rw [maxPid_eq] at hu hlt hend
  rw [pidDist, pidDist, maxPid_eq]
  split_ifs <;> omega

/-- A number that no process carries is not passed over: a scan that starts again is closer to
it. -/
theorem getPidScan_again {u last' : ℕ} (hu : u ∉ list) (hu₁ : 1 ≤ u) (hu₂ : u < maxPid)
    (hlt : lastPid < maxPid) (hpos : 1 ≤ lastPid) (hnext : nextSafe ≤ maxPid)
    (h : getPidScan list lastPid nextSafe = .again last') :
    pidDist u last' < pidDist u lastPid ∧ 1 ≤ last' ∧ last' < maxPid := by
  induction list generalizing lastPid nextSafe with
  | nil =>
    rw [getPidScan] at h
    cases h
  | cons p list ih =>
    rw [List.mem_cons, not_or] at hu
    rw [getPidScan] at h
    by_cases hp : p = lastPid
    · have hne : u ≠ lastPid := hp ▸ hu.1
      rw [if_pos hp] at h
      by_cases hend : nextSafe ≤ lastPid + 1
      · rw [if_pos hend] at h
        obtain rfl := ScanEnd.again.inj h
        by_cases hwrap : maxPid ≤ lastPid + 1
        · rw [if_pos hwrap]
          exact ⟨pidDist_one hne hu₁ hu₂ hlt hwrap, le_rfl, by rw [maxPid_eq]; omega⟩
        · rw [if_neg hwrap]
          exact ⟨pidDist_succ hne (not_le.mp hwrap), by omega, not_le.mp hwrap⟩
      · rw [if_neg hend] at h
        have hlt' : lastPid + 1 < maxPid := (not_le.mp hend).trans_le hnext
        obtain ⟨h₁, h₂⟩ := ih hu.2 hlt' (by omega) hnext h
        exact ⟨h₁.trans (pidDist_succ hne hlt'), h₂⟩
    · rw [if_neg hp] at h
      by_cases hin : lastPid < p ∧ p < nextSafe
      · rw [if_pos hin] at h
        exact ih hu.2 hlt hpos (hin.2.le.trans hnext) h
      · rw [if_neg hin] at h
        exact ih hu.2 hlt hpos hnext h

end Scan

/-! ## The scans end -/

section Inside

variable {pids : List ℕ} {lastPid : ℕ}

/-- There is a number that no process carries. -/
theorem exists_unused (h : pids.length + 1 < maxPid) : ∃ u, u ∉ pids ∧ 1 ≤ u ∧ u < maxPid := by
  have hcard : pids.toFinset.card < (Finset.Ico 1 maxPid).card := by
    refine lt_of_le_of_lt (List.toFinset_card_le pids) ?_
    rw [Nat.card_Ico]
    exact Nat.lt_sub_of_add_lt h
  obtain ⟨u, hu, hnot⟩ := Finset.exists_mem_notMem_of_card_lt_card hcard
  rw [Finset.mem_Ico] at hu
  exact ⟨u, fun hmem ↦ hnot (List.mem_toFinset.mpr hmem), hu⟩

theorem getPidInside_some {u : ℕ} (hu : u ∉ pids) (hu₁ : 1 ≤ u) (hu₂ : u < maxPid) (fuel : ℕ)
    (hlt : lastPid < maxPid) (hpos : 1 ≤ lastPid) (hfuel : pidDist u lastPid < fuel) :
    ∃ r, getPidInside pids lastPid fuel = some r := by
  induction fuel generalizing lastPid with
  | zero => omega
  | succ fuel ih =>
    rw [getPidInside]
    cases hscan : getPidScan pids lastPid maxPid with
    | done last' next' => exact ⟨_, rfl⟩
    | again last' =>
      obtain ⟨hdist, hpos', hlt'⟩ := getPidScan_again hu hu₁ hu₂ hlt hpos le_rfl hscan
      exact ih hlt' hpos' (by omega)

theorem getPidInside_clear {u : ℕ} (hu : u ∉ pids) (hu₁ : 1 ≤ u) (hu₂ : u < maxPid) {fuel : ℕ}
    {r : ℕ × ℕ} (hlt : lastPid < maxPid) (hpos : 1 ≤ lastPid)
    (h : getPidInside pids lastPid fuel = some r) :
    1 ≤ r.1 ∧ r.1 < r.2 ∧ r.2 ≤ maxPid ∧ Clear pids r.1 r.2 := by
  induction fuel generalizing lastPid with
  | zero => cases h
  | succ fuel ih =>
    rw [getPidInside] at h
    cases hscan : getPidScan pids lastPid maxPid with
    | done last' next' =>
      rw [hscan] at h
      obtain rfl := Option.some.inj h
      obtain ⟨h₁, h₂, h₃, h₄⟩ := getPidScan_done hscan hlt (clear_nil _ _)
      exact ⟨hpos.trans h₁, h₂, h₃, h₄⟩
    | again last' =>
      rw [hscan] at h
      obtain ⟨-, hpos', hlt'⟩ := getPidScan_again hu hu₁ hu₂ hlt hpos le_rfl hscan
      exact ih hlt' hpos' h

end Inside

/-! ## Histories -/

/-- A process comes or goes. `do_fork` checks the number of processes before it calls `get_pid` and
puts the new one in front of the list; `remove_links` takes one out. -/
inductive PidStep : PidState → PidState → Prop
  | create {s s' : PidState} {fuel : ℕ} (hroom : s.pids.length < maxProcess)
      (h : getPid fuel s = some s') : PidStep s { s' with pids := s'.lastPid :: s'.pids }
  | remove {s : PidState} {pid : ℕ} (h : pid ∈ s.pids) :
      PidStep s { s with pids := s.pids.erase pid }

/-- At boot. -/
def PidState.boot : PidState := ⟨maxPid, maxPid, []⟩

/-- What holds between two calls of `get_pid`: the numbers strictly between the two variables are
free. -/
structure PidState.Ok (s : PidState) : Prop where
  pos : 1 ≤ s.lastPid
  length_le : s.pids.length ≤ maxProcess
  next_le : s.nextSafe ≤ maxPid
  window : Clear s.pids (s.lastPid + 1) s.nextSafe

theorem pidDist_lt {u lastPid : ℕ} (hu : u < maxPid) : pidDist u lastPid < 2 * maxPid := by
  rw [pidDist]
  split_ifs <;> omega

/-- A call returns: the scans end. -/
theorem getPid_returns {s : PidState} (hlen : s.pids.length + 1 < maxPid) :
    ∃ s', getPid (2 * maxPid) s = some s' := by
  obtain ⟨u, hu, hu₁, hu₂⟩ := exists_unused hlen
  rw [getPid]
  by_cases hwrap : maxPid ≤ s.lastPid + 1
  · obtain ⟨r, hr⟩ := getPidInside_some hu hu₁ hu₂ (2 * maxPid) (hu₁.trans_lt hu₂) le_rfl
      (pidDist_lt hu₂)
    rw [if_pos hwrap, hr]
    exact ⟨_, rfl⟩
  · rw [if_neg hwrap]
    by_cases hscan : s.nextSafe ≤ s.lastPid + 1
    · obtain ⟨r, hr⟩ := getPidInside_some hu hu₁ hu₂ (2 * maxPid) (not_le.mp hwrap)
        (Nat.le_add_left ..) (pidDist_lt hu₂)
      rw [if_pos hscan, hr]
      exact ⟨_, rfl⟩
    · rw [if_neg hscan]
      exact ⟨_, rfl⟩

/-- What a call returns is in range and new, and so is everything up to `nextSafe`. -/
theorem getPid_fresh {s s' : PidState} {fuel : ℕ} (hlen : s.pids.length + 1 < maxPid)
    (hnext : s.nextSafe ≤ maxPid) (hwindow : Clear s.pids (s.lastPid + 1) s.nextSafe)
    (hget : getPid fuel s = some s') :
    s'.pids = s.pids ∧ 1 ≤ s'.lastPid ∧ s'.lastPid < s'.nextSafe ∧ s'.nextSafe ≤ maxPid ∧
      Clear s.pids s'.lastPid s'.nextSafe := by
  obtain ⟨u, hu, hu₁, hu₂⟩ := exists_unused hlen
  rw [getPid] at hget
  by_cases hwrap : maxPid ≤ s.lastPid + 1
  · rw [if_pos hwrap, Option.map_eq_some_iff] at hget
    obtain ⟨r, hr, rfl⟩ := hget
    exact ⟨rfl, getPidInside_clear hu hu₁ hu₂ (hu₁.trans_lt hu₂) le_rfl hr⟩
  · rw [if_neg hwrap] at hget
    by_cases hscan : s.nextSafe ≤ s.lastPid + 1
    · rw [if_pos hscan, Option.map_eq_some_iff] at hget
      obtain ⟨r, hr, rfl⟩ := hget
      exact ⟨rfl, getPidInside_clear hu hu₁ hu₂ (not_le.mp hwrap) (Nat.le_add_left ..) hr⟩
    · rw [if_neg hscan] at hget
      obtain rfl := Option.some.inj hget
      exact ⟨rfl, Nat.le_add_left .., not_le.mp hscan, hnext, hwindow⟩

theorem PidState.Ok.room {s : PidState} (h : s.Ok) : s.pids.length + 1 < maxPid := by
  have hle := h.length_le
  rw [maxPid_eq]
  rw [maxProcess_eq] at hle
  omega

theorem PidState.Ok.getPid_some {s : PidState} (h : s.Ok) :
    ∃ s', getPid (2 * maxPid) s = some s' := getPid_returns h.room

theorem PidState.Ok.getPid_spec {s s' : PidState} {fuel : ℕ} (h : s.Ok)
    (hget : getPid fuel s = some s') :
    s'.pids = s.pids ∧ 1 ≤ s'.lastPid ∧ s'.lastPid < s'.nextSafe ∧ s'.nextSafe ≤ maxPid ∧
      Clear s.pids s'.lastPid s'.nextSafe := getPid_fresh h.room h.next_le h.window hget

theorem PidState.boot_ok : PidState.boot.Ok where
  pos := by
    change 1 ≤ maxPid
    rw [maxPid_eq]
    omega
  length_le := Nat.zero_le _
  next_le := le_rfl
  window p hp := absurd hp List.not_mem_nil

theorem PidStep.ok {s t : PidState} (hstep : PidStep s t) (h : s.Ok) : t.Ok := by
  cases hstep with
  | create hroom hget =>
    obtain ⟨hpids, hpos, -, hnext, hclear⟩ := h.getPid_spec hget
    refine ⟨hpos, ?_, hnext, fun p hp ↦ ?_⟩
    · rw [List.length_cons, hpids]
      exact hroom
    · rcases List.mem_cons.mp hp with rfl | hp
      · exact fun hc ↦ Nat.not_succ_le_self _ hc.1
      · rw [hpids] at hp
        exact hclear.mono (Nat.le_succ _) le_rfl p hp
  | remove _ =>
    exact ⟨h.pos, (List.length_erase_le).trans h.length_le, h.next_le,
      fun p hp ↦ h.window p (List.mem_of_mem_erase hp)⟩

theorem PidState.ok_of_reachable {s : PidState} (h : Relation.ReflTransGen PidStep .boot s) :
    s.Ok := by
  induction h with
  | refl => exact PidState.boot_ok
  | tail _ hstep ih => exact hstep.ok ih

/-- After every history a call of `get_pid` returns, what it returns is in `[1, MAX_PID)` and
carried by no process, and no process carries a number strictly between the two static variables. -/
theorem getPid_unique {s : PidState} (h : Relation.ReflTransGen PidStep .boot s) :
    (∃ s', getPid (2 * maxPid) s = some s') ∧
      (∀ fuel s', getPid fuel s = some s' →
        1 ≤ s'.lastPid ∧ s'.lastPid < maxPid ∧ s'.lastPid ∉ s.pids) ∧
      ∀ p, s.lastPid < p → p < s.nextSafe → p ∉ s.pids := by
  have hok := PidState.ok_of_reachable h
  refine ⟨hok.getPid_some, fun fuel s' hget ↦ ?_, fun p hlast hnext hp ↦ ?_⟩
  · obtain ⟨-, hpos, hlt, hnext, hclear⟩ := hok.getPid_spec hget
    exact ⟨hpos, hlt.trans_le hnext, fun hp ↦ hclear _ hp ⟨le_rfl, hlt⟩⟩
  · exact hok.window p hp ⟨hlast, hnext⟩

/-- A history that takes the numbers 1, 2 and 3 and gives 2 back. -/
theorem getPid_unique_sample :
    (∃ s', getPid (2 * maxPid) ⟨3, 8192, [3, 1]⟩ = some s') ∧
      (∀ fuel s', getPid fuel ⟨3, 8192, [3, 1]⟩ = some s' →
        1 ≤ s'.lastPid ∧ s'.lastPid < maxPid ∧ s'.lastPid ∉ [3, 1]) ∧
      ∀ p, 3 < p → p < 8192 → p ∉ [3, 1] := by
  have h₁ : PidStep .boot ⟨1, 8192, [1]⟩ :=
    PidStep.create (by decide) (show getPid 1 .boot = some ⟨1, 8192, []⟩ from rfl)
  have h₂ : PidStep ⟨1, 8192, [1]⟩ ⟨2, 8192, [2, 1]⟩ :=
    PidStep.create (by decide) (show getPid 1 ⟨1, 8192, [1]⟩ = some ⟨2, 8192, [1]⟩ from rfl)
  have h₃ : PidStep ⟨2, 8192, [2, 1]⟩ ⟨3, 8192, [3, 2, 1]⟩ :=
    PidStep.create (by decide) (show getPid 1 ⟨2, 8192, [2, 1]⟩ = some ⟨3, 8192, [2, 1]⟩ from rfl)
  have h₄ : PidStep ⟨3, 8192, [3, 2, 1]⟩ ⟨3, 8192, [3, 1]⟩ :=
    PidStep.remove (show 2 ∈ (⟨3, 8192, [3, 2, 1]⟩ : PidState).pids by decide)
  exact getPid_unique (((Relation.ReflTransGen.single h₁).tail h₂).tail h₃ |>.tail h₄)

end Ucore
