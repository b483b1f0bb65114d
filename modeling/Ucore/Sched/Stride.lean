import Ucore.Lib.SkewOrder
import Ucore.Sched.Schedule

/-!
# The stride scheduler

`kern/schedule/default_sched_stride.c` of lab 6 and of lab 8, which differ in `BIG_STRIDE` and in
what they do with the priority 0, with the parts of `wakeup_proc`, `schedule` and
`lab6_set_priority` that drive it. `ofKernel_schedule` says that `schedule` of the kernel is the one
of this file.

A stride is a counter of 32 bits, and two of them are compared by the sign of their difference. That
is the comparison of the counters without the wrap, the *totals*, as long as these are at most
`BIG_STRIDE` apart.
-/

namespace Ucore.Stride

open SkewHeap

/-! ## The scheduler -/

/-- What the two versions of the file differ in. -/
structure Version where
  /-- `BIG_STRIDE`. -/
  big : BitVec 32
  /-- What is added to the stride of a process with the priority 0. -/
  atZero : BitVec 32
  big_lt : big.toNat < 2 ^ 31

/-- Lab 6 adds `BIG_STRIDE` for the priority 0. -/
def lab6 : Version := ⟨0x7FFFFFFF, 0x7FFFFFFF, by decide⟩

/-- Lab 8 divides by the priority, and the `divu` of the processor answers a division by 0 with all
bits set. -/
def lab8 : Version := ⟨100000, BitVec.allOnes 32, by decide⟩

/-- `BIG_STRIDE / priority`. -/
def Version.pass (v : Version) (priority : BitVec 32) : BitVec 32 :=
  if priority = 0 then v.atZero else v.big / priority

/-- What the scheduler works on. A process is named by the address of its `proc_struct`. -/
structure Rq where
  /-- `rq->lab6_run_pool`. -/
  pool : SkewHeap ℕ
  /-- `proc->lab6_stride`. -/
  stride : ℕ → BitVec 32
  /-- `proc->lab6_priority`. -/
  priority : ℕ → BitVec 32
  /-- `current`, unless that is the idle process. -/
  current : Option ℕ

namespace Rq

variable (s : Rq) (v : Version)

def procStrideCompF (p q : ℕ) : ℤ :=
  let c := (s.stride p - s.stride q).toInt
  if 0 < c then 1 else if c = 0 then 0 else -1

/-- The comparison of the skew heap. -/
def lt (p q : ℕ) : Bool := s.procStrideCompF p q = -1

def strideEnqueue (p : ℕ) : Rq := { s with pool := s.pool.insert s.lt p }

def strideDequeue (p : ℕ) : Rq := { s with pool := s.pool.remove s.lt p }

def stridePickNext : Option (ℕ × Rq) :=
  match s.pool.root with
  | none => none
  | some p => some (p,
      { s with stride := Function.update s.stride p (s.stride p + v.pass (s.priority p)) })

/-- The first half of `schedule`: the running process is queued again if it can run. The idle
process never is. -/
def requeue (runnable : Bool) : Rq :=
  match s.current with
  | none => s
  | some p => if runnable = true then s.strideEnqueue p else s

/-- The second half of `schedule`. -/
def switch : Rq :=
  match s.stridePickNext v with
  | none => { s with current := none }
  | some (p, s) => { s.strideDequeue p with current := some p }

/-- `schedule`, when the running process can go on or not. -/
def schedule (runnable : Bool) : Rq := (s.requeue runnable).switch v

def lab6SetPriority (priority : BitVec 32) : Rq :=
  match s.current with
  | none => s
  | some p =>
    { s with priority := Function.update s.priority p (if priority = 0 then 1 else priority) }

end Rq

/-- What can happen. -/
inductive Act
  /-- A process that has been created or has slept is woken up. -/
  | wakeup (p : ℕ)
  /-- The running process sets its priority. -/
  | setPriority (priority : BitVec 32)
  /-- `schedule`: the running process has been preempted, or it sleeps or has exited. -/
  | schedule (runnable : Bool)
  deriving DecidableEq, Repr

/-- `MAX_PROCESS`: `do_fork` creates no more processes than that. -/
def maxProcess : ℕ := 4096

/-- What an action does. -/
def Rq.step (v : Version) (s : Rq) : Act → Rq
  | .wakeup p => s.strideEnqueue p
  | .setPriority priority => s.lab6SetPriority priority
  | .schedule runnable => s.schedule v runnable

/-- A process that is woken up is neither queued nor running, and there are not too many. -/
def Act.Legal (s : Rq) : Act → Prop
  | .wakeup p => p ∉ s.pool.toList ∧ s.current ≠ some p ∧ s.pool.toList.length < maxProcess
  | _ => True

/-- The scheduler before any process has run. -/
def start (priority : ℕ → BitVec 32) : Rq := ⟨.nil, fun _ ↦ 0, priority, none⟩

/-! ## The members of the queue -/

variable {v : Version} {s s' : Rq} {p q : ℕ}

/-- Each process is queued at most once, and the running one is not. -/
structure Members (s : Rq) : Prop where
  nodup : s.pool.toList.Nodup
  current : ∀ p, s.current = some p → p ∉ s.pool.toList

theorem Members.enqueue (h : Members s) (hp : p ∉ s.pool.toList) :
    (s.strideEnqueue p).pool.toList.Nodup := by
  rw [Rq.strideEnqueue, (toList_insert s.lt s.pool p).nodup_iff, List.nodup_cons]
  exact ⟨hp, h.nodup⟩

theorem Members.requeue (h : Members s) (b : Bool) : (s.requeue b).pool.toList.Nodup := by
  rw [Rq.requeue]
  cases hcur : s.current with
  | none => exact h.nodup
  | some p =>
    cases b with
    | false => exact h.nodup
    | true => exact h.enqueue (h.current p hcur)

/-- What the second half of `schedule` does when a process is queued. -/
theorem switch_of_root (hroot : s.pool.root = some p) :
    s.switch v =
      { pool := s.pool.remove
          { s with stride := Function.update s.stride p (s.stride p + v.pass (s.priority p)) }.lt p
        stride := Function.update s.stride p (s.stride p + v.pass (s.priority p))
        priority := s.priority
        current := some p } := by
  rw [Rq.switch, Rq.stridePickNext, hroot]
  rfl

theorem switch_of_none (hroot : s.pool.root = none) :
    s.switch v = { s with current := none } := by
  rw [Rq.switch, Rq.stridePickNext, hroot]

theorem Members.switch (h : s.pool.toList.Nodup) (v : Version) : Members (s.switch v) := by
  cases hroot : s.pool.root with
  | none =>
    rw [switch_of_none hroot]
    exact ⟨h, fun p hp ↦ by cases hp⟩
  | some p =>
    rw [switch_of_root hroot]
    have hperm := toList_remove_root
      { s with stride := Function.update s.stride p (s.stride p + v.pass (s.priority p)) }.lt hroot
    have hnodup := hperm.nodup_iff.mp h
    refine ⟨hnodup.of_cons, fun x hx ↦ ?_⟩
    rw [← Option.some.inj hx]
    exact hnodup.notMem

theorem Members.step (h : Members s) {a : Act} (ha : a.Legal s) : Members (s.step v a) := by
  cases a with
  | wakeup p =>
    refine ⟨h.enqueue ha.1, fun x hx hmem ↦ ?_⟩
    rcases mem_insert.mp hmem with rfl | hmem
    · exact ha.2.1 hx
    · exact h.current x hx hmem
  | setPriority priority =>
    rw [Rq.step, Rq.lab6SetPriority]
    cases hcur : s.current with
    | none => exact h
    | some p => exact ⟨h.nodup, fun x hx ↦ h.current x (hcur.trans hx)⟩
  | schedule b => exact .switch (h.requeue b) v

/-! ## No process is passed over for ever -/

/-- A pass is between 1 and `BIG_STRIDE` exactly when the priority is. -/
theorem pass_iff (v : Version) (priority : BitVec 32) :
    (priority ≠ 0 ∧ 1 ≤ (v.pass priority).toNat ∧ (v.pass priority).toNat ≤ v.big.toNat) ↔
      1 ≤ priority.toNat ∧ priority.toNat ≤ v.big.toNat := by
  rcases eq_or_ne priority 0 with rfl | hne
  · exact ⟨fun h ↦ absurd rfl h.1, fun h ↦ absurd h.1 (by decide)⟩
  have hpos : 0 < priority.toNat := Nat.pos_of_ne_zero fun hcon ↦
    hne (BitVec.eq_of_toNat_eq hcon)
  rw [Version.pass, if_neg hne, BitVec.toNat_udiv, Nat.one_le_div_iff hpos]
  exact ⟨fun h ↦ ⟨hpos, h.2.1⟩, fun h ↦ ⟨hne, h.2, Nat.div_le_self _ _⟩⟩

/-- An unbounded run. -/
structure Run (v : Version) (σ : ℕ → Rq) (act : ℕ → Act) : Prop where
  start : ∃ priority, σ 0 = start priority
  legal : ∀ n, (act n).Legal (σ n)
  step : ∀ n, σ (n + 1) = (σ n).step v (act n)

/-- `stride_pick_next` is called in step `n` and takes process `p`. -/
def Picks (σ : ℕ → Rq) (act : ℕ → Act) (n p : ℕ) : Prop :=
  ∃ b, act n = .schedule b ∧ ((σ n).requeue b).pool.root = some p

/-- Every process advances: no division by zero, a pass between 1 and `BIG_STRIDE`, and no process
is passed over in favour of the same other one for ever. -/
structure Advances (v : Version) (σ : ℕ → Rq) (act : ℕ → Act) : Prop where
  pass : ∀ n p, Picks σ act n p → (σ n).priority p ≠ 0 ∧
    1 ≤ (v.pass ((σ n).priority p)).toNat ∧ (v.pass ((σ n).priority p)).toNat ≤ v.big.toNat
  fair : ∀ p q t, p ≠ q → (∀ n ≥ t, p ∈ (σ n).pool.toList) →
    (∀ n ≥ t, ∀ b, act n = .schedule b → (σ (n + 1)).current = some q) →
    ∃ N, ∀ n ≥ N, ∀ b, act n ≠ .schedule b

/-- How far the first process of the queue is behind another one. -/
def gap (s : Rq) (q : ℕ) : ℤ :=
  match s.pool.root with
  | none => 0
  | some r => (s.stride r - s.stride q).toInt

/-- What goes down as long as `q` is preferred: first the processes that can still join, then how
far the others are behind. -/
def preference (s : Rq) (q : ℕ) : ℕ :=
  (maxProcess - s.pool.toList.length) * 2 ^ 32 + (gap s q + 2 ^ 31).toNat

theorem gap_bounds (s : Rq) (q : ℕ) : -2 ^ 31 ≤ gap s q ∧ gap s q < 2 ^ 31 := by
  rw [gap]
  cases s.pool.root with
  | none => exact ⟨by norm_num, by norm_num⟩
  | some r => exact ⟨BitVec.le_toInt _, BitVec.toInt_lt⟩

/-- Adding a pass to the stride that is ahead widens the signed difference, without a wrap. -/
theorem toInt_sub_add {x y c : BitVec 32} (h : 0 ≤ (x - y).toInt) (hc : c.toNat < 2 ^ 31) :
    (x - (y + c)).toInt = (x - y).toInt - c.toNat := by
  have hlt : (x - y).toInt < 2 ^ 31 := BitVec.toInt_lt
  have hc' : c.toInt = c.toNat := BitVec.toInt_eq_toNat_of_lt (by omega)
  have heq : x - (y + c) = x - y - c := by
    rw [BitVec.sub_sub]
  rw [heq, BitVec.toInt_sub, hc']
  exact Int.bmod_eq_of_le (by omega) (by omega)

theorem lt_iff (s : Rq) (p q : ℕ) : s.lt p q = true ↔ (s.stride p - s.stride q).toInt < 0 := by
  rw [Rq.lt, decide_eq_true_iff, Rq.procStrideCompF]
  split
  · exact ⟨fun h ↦ absurd h (by decide), fun h ↦ by omega⟩
  · split
    · exact ⟨fun h ↦ absurd h (by decide), fun h ↦ by omega⟩
    · exact ⟨fun _ ↦ by omega, fun _ ↦ rfl⟩

/-- One `schedule` that takes the running process `q` again, although others are queued: the queue
is as before, and `q` has advanced. -/
theorem schedule_same (h : Members s) (hcur : s.current = some q) (hp : p ∈ s.pool.toList)
    {b : Bool} (hnext : (s.schedule v b).current = some q) :
    (s.requeue b).pool.root = some q ∧ 0 ≤ gap s q ∧
      s.schedule v b =
        { s with stride := Function.update s.stride q (s.stride q + v.pass (s.priority q)) } := by
  have hq : q ∉ s.pool.toList := h.current q hcur
  obtain ⟨r, l, l', hpool⟩ : ∃ r l l', s.pool = .node r l l' := by
    cases hpool : s.pool with
    | nil =>
      rw [hpool] at hp
      exact absurd hp List.not_mem_nil
    | node r l l' => exact ⟨r, l, l', rfl⟩
  have hrq : r ≠ q := fun heq ↦ hq (by rw [hpool, heq]; exact List.mem_cons_self)
  -- the first process of the others is not the one that is taken
  have hroot : ∀ s' : Rq, s.requeue b = s' → s'.pool.root ≠ some r := by
    rintro s' rfl hroot
    rw [Rq.schedule, switch_of_root hroot] at hnext
    exact hrq (Option.some.inj hnext)
  cases b with
  | false =>
    refine absurd ?_ (hroot s ?_)
    · rw [hpool, root_node]
    · rw [Rq.requeue, hcur]
      rfl
  | true =>
    have hre : s.requeue true = s.strideEnqueue q := by
      rw [Rq.requeue, hcur]
      rfl
    by_cases hlt : s.lt r q = true
    · refine absurd ?_ (hroot _ hre)
      rw [Rq.strideEnqueue, hpool]
      exact root_insert_of_lt hlt
    have hins : s.strideEnqueue q = { s with pool := .node q s.pool .nil } := by
      rw [Rq.strideEnqueue, hpool, insert_of_not_lt hlt]
    have hgap : 0 ≤ gap s q := by
      rw [lt_iff, not_lt] at hlt
      rw [gap, hpool, root_node]
      exact hlt
    refine ⟨by rw [hre, hins, root_node], hgap, ?_⟩
    rw [Rq.schedule, hre, hins, switch_of_root (root_node _ _ _)]
    simp only [remove_top, ← hcur]

/-- As long as `q` is taken although others are queued, every `schedule` makes the preference
smaller, and nothing makes it larger. -/
theorem preference_step (h : Members s) (hcur : s.current = some q) (hp : p ∈ s.pool.toList)
    {a : Act} (ha : a.Legal s) (hnext : ∀ b, a = .schedule b → (s.step v a).current = some q)
    (hpass : ∀ b, a = .schedule b → (s.requeue b).pool.root = some q →
      1 ≤ (v.pass (s.priority q)).toNat ∧ (v.pass (s.priority q)).toNat ≤ v.big.toNat) :
    (s.step v a).current = some q ∧ preference (s.step v a) q ≤ preference s q ∧
      (∀ b, a = .schedule b → preference (s.step v a) q < preference s q) := by
  cases a with
  | wakeup x =>
    refine ⟨hcur, ?_, fun b hb ↦ by cases hb⟩
    obtain ⟨-, -, hroom⟩ := ha
    have hlen : (s.step v (.wakeup x)).pool.toList.length = s.pool.toList.length + 1 :=
      (toList_insert s.lt s.pool x).length_eq
    have hgap := gap_bounds s q
    have hgap' := gap_bounds (s.step v (.wakeup x)) q
    rw [preference, preference, hlen]
    omega
  | setPriority priority =>
    refine ⟨?_, ?_, fun b hb ↦ by cases hb⟩
    · rw [Rq.step, Rq.lab6SetPriority, hcur]
    · rw [Rq.step, Rq.lab6SetPriority, hcur]
      exact le_rfl
  | schedule b =>
    have hgo : (s.schedule v b).current = some q := hnext b rfl
    obtain ⟨hroot, hgap, heq⟩ := schedule_same h hcur hp hgo
    obtain ⟨hone, hbig⟩ := hpass b rfl hroot
    have hlt : preference (s.schedule v b) q < preference s q := by
      have hq : q ∉ s.pool.toList := h.current q hcur
      rw [heq, preference, preference]
      have hstep : gap { s with
            stride := Function.update s.stride q (s.stride q + v.pass (s.priority q)) } q =
          gap s q - (v.pass (s.priority q)).toNat := by
        rw [gap] at hgap
        rw [gap, gap]
        cases hr : s.pool.root with
        | none =>
          rw [root_eq_none_iff.mp hr] at hp
          exact absurd hp List.not_mem_nil
        | some r =>
          have hrq : r ≠ q := fun heq ↦ hq (heq ▸ mem_of_root hr)
          rw [hr] at hgap
          simp only [Function.update_self, Function.update_of_ne hrq]
          exact toInt_sub_add hgap (by have := v.big_lt; omega)
      rw [hstep]
      change (maxProcess - s.pool.toList.length) * 2 ^ 32 + _ < _
      have hup := (gap_bounds s q).2
      have hbig' := v.big_lt
      omega
    exact ⟨hgo, hlt.le, fun _ _ ↦ hlt⟩

theorem Run.members {σ : ℕ → Rq} {act : ℕ → Act} (h : Run v σ act) (n : ℕ) : Members (σ n) := by
  induction n with
  | zero =>
    obtain ⟨priority, hstart⟩ := h.start
    rw [hstart]
    exact ⟨List.nodup_nil, fun p hp ↦ by cases hp⟩
  | succ n ih =>
    rw [h.step n]
    exact ih.step (h.legal n)

/-- A process that stays queued is not passed over for ever, when every pass is between 1 and
`BIG_STRIDE`. -/
theorem Run.fair {σ : ℕ → Rq} {act : ℕ → Act} (h : Run v σ act)
    (hpass : ∀ n p, Picks σ act n p →
      1 ≤ (v.pass ((σ n).priority p)).toNat ∧ (v.pass ((σ n).priority p)).toNat ≤ v.big.toNat)
    {p q t : ℕ} (hp : ∀ n ≥ t, p ∈ (σ n).pool.toList)
    (hq : ∀ n ≥ t, ∀ b, act n = .schedule b → (σ (n + 1)).current = some q) :
    ∃ N, ∀ n ≥ N, ∀ b, act n ≠ .schedule b := by
  have hstep : ∀ n ≥ t, (σ n).current = some q → (σ (n + 1)).current = some q ∧
      preference (σ (n + 1)) q ≤ preference (σ n) q ∧
      ∀ b, act n = .schedule b → preference (σ (n + 1)) q < preference (σ n) q := by
    intro n hn hcur
    rw [h.step n]
    refine preference_step (h.members n) hcur (hp n hn) (h.legal n) (fun b hb ↦ ?_)
      fun b hb hroot ↦ ?_
    · rw [← h.step n]
      exact hq n hn b hb
    · exact hpass n q ⟨b, hb, hroot⟩
  have hstay : ∀ k ≥ t, (σ k).current = some q → ∀ n ≥ k, (σ n).current = some q ∧
      preference (σ n) q ≤ preference (σ k) q := by
    intro k hk hcur n hn
    induction n, hn using Nat.le_induction with
    | base => exact ⟨hcur, le_rfl⟩
    | succ n hn ih =>
      obtain ⟨hcur', hle, -⟩ := hstep n (hk.trans hn) ih.1
      exact ⟨hcur', hle.trans ih.2⟩
  -- once `q` runs, its preference bounds how often it is taken
  have hrest : ∀ m, ∀ k ≥ t, (σ k).current = some q → preference (σ k) q = m →
      ∃ N, ∀ n ≥ N, ∀ b, act n ≠ .schedule b := by
    intro m
    induction m using Nat.strong_induction_on with
    | h m ih =>
      intro k hk hcur hm
      by_cases hmore : ∃ n ≥ k, ∃ b, act n = .schedule b
      · obtain ⟨n, hn, b, hb⟩ := hmore
        obtain ⟨hcur', hle⟩ := hstay k hk hcur n hn
        obtain ⟨hcur'', -, hlt⟩ := hstep n (hk.trans hn) hcur'
        exact ih _ ((hlt b hb).trans_le (hle.trans hm.le)) (n + 1) ((hk.trans hn).trans n.le_succ)
          hcur'' rfl
      · exact ⟨k, fun n hn b hb ↦ hmore ⟨n, hn, b, hb⟩⟩
  by_cases hmore : ∃ n ≥ t, ∃ b, act n = .schedule b
  · obtain ⟨n, hn, b, hb⟩ := hmore
    exact hrest _ (n + 1) (hn.trans n.le_succ) (hq n hn b hb) rfl
  · exact ⟨t, fun n hn b hb ↦ hmore ⟨n, hn, b, hb⟩⟩

/-- In lab 8 every process advances exactly when the priorities of the processes that are picked are
between 1 and `BIG_STRIDE`. The priority 0 of `alloc_proc` is not. -/
theorem advances_iff {σ : ℕ → Rq} {act : ℕ → Act} (h : Run lab8 σ act) :
    Advances lab8 σ act ↔ ∀ n p, Picks σ act n p →
      1 ≤ ((σ n).priority p).toNat ∧ ((σ n).priority p).toNat ≤ 100000 := by
  constructor
  · intro hadv n p hpick
    exact (pass_iff lab8 _).mp (hadv.pass n p hpick)
  · intro hall
    have hpass := fun n p hpick ↦ (pass_iff lab8 ((σ n).priority p)).mpr (hall n p hpick)
    exact ⟨hpass, fun p q t _ hp hq ↦ h.fair (fun n p hpick ↦ (hpass n p hpick).2) hp hq⟩

/-- The states of a run. -/
def states (v : Version) (s : Rq) (act : ℕ → Act) : ℕ → Rq
  | 0 => s
  | n + 1 => (states v s act n).step v (act n)

/-- Process 1 is woken up, and runs for ever. -/
def alone : ℕ → Act
  | 0 => .wakeup 1
  | _ => .schedule true

theorem run_alone (v : Version) (priority : ℕ → BitVec 32) :
    Run v (states v (start priority) alone) alone where
  start := ⟨priority, rfl⟩
  legal n := by
    cases n with
    | zero => exact ⟨List.not_mem_nil, by rintro ⟨⟩, show 0 < maxProcess by decide⟩
    | succ n => trivial
  step _ := rfl

theorem priority_schedule (v : Version) (s : Rq) (b : Bool) :
    (s.schedule v b).priority = s.priority := by
  have hre : (s.requeue b).priority = s.priority := by
    rw [Rq.requeue]
    cases s.current with
    | none => rfl
    | some p => cases b <;> rfl
  rw [Rq.schedule]
  cases hroot : (s.requeue b).pool.root with
  | none => rw [switch_of_none hroot, hre]
  | some p => rw [switch_of_root hroot, hre]

theorem priority_alone (v : Version) (priority : ℕ → BitVec 32) (n : ℕ) :
    (states v (start priority) alone n).priority = priority := by
  induction n with
  | zero => rfl
  | succ n ih =>
    rw [states]
    cases n with
    | zero => rfl
    | succ n =>
      rw [alone, Rq.step, priority_schedule]
      · exact ih
      · rintro ⟨⟩

/-- With the priority 1, the process advances. -/
theorem advances_alone : Advances lab8 (states lab8 (start fun _ ↦ 1) alone) alone :=
  (advances_iff (run_alone lab8 fun _ ↦ 1)).mpr fun n p _ ↦ by
    rw [priority_alone]
    exact ⟨by decide, by decide⟩

/-- With the priority that `alloc_proc` gives, the first pick divides by zero. -/
theorem alone_divides_by_zero : ∃ σ act, Run lab8 σ act ∧ (∀ p, (σ 0).priority p = 0) ∧
    ¬Advances lab8 σ act := by
  refine ⟨_, _, run_alone lab8 fun _ ↦ 0, fun _ ↦ rfl, fun hadv ↦ ?_⟩
  exact (hadv.pass 1 1 ⟨true, rfl, rfl⟩).1 rfl

/-! ## The totals -/

/-- The totals of a list of processes are at most `BIG_STRIDE` apart. -/
def Spread (v : Version) (total : ℕ → ℕ) (l : List ℕ) : Prop :=
  ∀ x ∈ l, ∀ y ∈ l, total x ≤ total y + v.big.toNat

/-- A queue whose strides are the totals modulo `2 ^ 32`, whose heap is ordered by the totals, and
in which they are at most `BIG_STRIDE` apart. -/
structure Queue (v : Version) (s : Rq) (total : ℕ → ℕ) : Prop where
  nodup : s.pool.toList.Nodup
  stride : ∀ p, s.stride p = BitVec.ofNat 32 (total p)
  ordered : s.pool.Ordered total
  spread : Spread v total s.pool.toList

variable {total : ℕ → ℕ}

theorem Spread.mono {l l' : List ℕ} (h : Spread v total l) (hl : l' ⊆ l) : Spread v total l' :=
  fun x hx y hy ↦ h x (hl hx) y (hl hy)

/-- The signed difference of two strides is the difference of the totals, when these are not too far
apart. -/
theorem toInt_ofNat_sub {a b m : ℕ} (hm : m < 2 ^ 31) (hab : a ≤ b + m) (hba : b ≤ a + m) :
    (BitVec.ofNat 32 a - BitVec.ofNat 32 b).toInt = (a : ℤ) - b := by
  rw [BitVec.toInt_sub, BitVec.toInt_ofNat', BitVec.toInt_ofNat', ← Int.sub_bmod]
  exact Int.bmod_eq_of_le (by omega) (by omega)

theorem lt_iff_total (hstride : ∀ p, s.stride p = BitVec.ofNat 32 (total p)) {x y : ℕ}
    (hxy : total x ≤ total y + v.big.toNat) (hyx : total y ≤ total x + v.big.toNat) :
    s.lt x y = true ↔ total x < total y := by
  rw [lt_iff, hstride, hstride, toInt_ofNat_sub v.big_lt hxy hyx]
  omega

/-- `proc_stride_comp_f` compares the totals. -/
theorem procStrideCompF_eq (hstride : ∀ p, s.stride p = BitVec.ofNat 32 (total p)) {x y : ℕ}
    (hxy : total x ≤ total y + v.big.toNat) (hyx : total y ≤ total x + v.big.toNat) :
    s.procStrideCompF x y = ((total x : ℤ) - total y).sign := by
  rw [Rq.procStrideCompF, hstride, hstride, toInt_ofNat_sub v.big_lt hxy hyx]
  rcases lt_trichotomy ((total x : ℤ) - total y) 0 with hlt | heq | hgt
  · rw [if_neg (by omega), if_neg (by omega), Int.sign_eq_neg_one_of_neg hlt]
  · rw [if_neg (by omega), if_pos heq, heq, Int.sign_zero]
  · rw [if_pos hgt, Int.sign_eq_one_of_pos hgt]

/-- A process joins that is not too far from the queued ones. -/
theorem Queue.enqueue (h : Queue v s total) (hp : p ∉ s.pool.toList)
    (hspread : Spread v total (p :: s.pool.toList)) : Queue v (s.strideEnqueue p) total where
  nodup := by
    rw [Rq.strideEnqueue, (toList_insert s.lt s.pool p).nodup_iff, List.nodup_cons]
    exact ⟨hp, h.nodup⟩
  stride := h.stride
  ordered := by
    refine h.ordered.insert fun x hx y hy ↦ ?_
    have hx' : x ∈ p :: s.pool.toList := List.mem_cons_of_mem p hx
    have hy' : y ∈ p :: s.pool.toList := List.mem_singleton.mp hy ▸ List.mem_cons_self
    exact lt_iff_total h.stride (hspread x hx' y hy') (hspread y hy' x hx')
  spread := hspread.mono fun x hx ↦ List.mem_cons.mpr (mem_insert.mp hx)

/-- The members of the queue once the first one is taken. -/
theorem switch_perm (v : Version) (hroot : s.pool.root = some p) :
    s.pool.toList.Perm (p :: (s.switch v).pool.toList) := by
  rw [switch_of_root hroot]
  exact toList_remove_root _ hroot

/-- The process with the smallest total is taken, and the queue stays in order. The process it takes
stays close to the queued ones. -/
theorem Queue.pick (h : Queue v s total) (hroot : s.pool.root = some p)
    (hpass : (v.pass (s.priority p)).toNat ≤ v.big.toNat) {total' : ℕ → ℕ}
    (htotal : total' = Function.update total p (total p + (v.pass (s.priority p)).toNat)) :
    Queue v (s.switch v) total' ∧ (∀ x ∈ s.pool.toList, total p ≤ total x) ∧
      Spread v total' (p :: (s.switch v).pool.toList) := by
  have hmin : ∀ x ∈ s.pool.toList, total p ≤ total x := fun x hx ↦ h.ordered.root_le hroot hx
  have hperm := switch_perm v hroot
  have hnodup := hperm.nodup_iff.mp h.nodup
  have hself : total' p = total p + (v.pass (s.priority p)).toNat := by
    rw [htotal, Function.update_self]
  have hother : ∀ x, x ≠ p → total' x = total x := fun x hx ↦ by
    rw [htotal, Function.update_of_ne hx]
  have hrest : ∀ x ∈ (s.switch v).pool.toList, x ∈ s.pool.toList ∧ total' x = total x :=
    fun x hx ↦ ⟨hperm.mem_iff.mpr (List.mem_cons_of_mem p hx),
      hother x fun heq ↦ hnodup.notMem (heq ▸ hx)⟩
  have hp : p ∈ s.pool.toList := mem_of_root hroot
  have hstride : ∀ x, (s.switch v).stride x = BitVec.ofNat 32 (total' x) := by
    intro x
    rw [switch_of_root hroot]
    rcases eq_or_ne x p with rfl | hne
    · simp only [Function.update_self]
      rw [h.stride, hself, BitVec.ofNat_add, BitVec.ofNat_toNat, BitVec.setWidth_eq]
    · simp only [Function.update_of_ne hne]
      rw [h.stride, hother x hne]
  -- the process that is taken was the smallest, and so it is at most one pass ahead now
  have hclose : Spread v total' (p :: (s.switch v).pool.toList) := by
    intro x hx y hy
    rcases List.mem_cons.mp hx with hxp | hxr
    · rcases List.mem_cons.mp hy with hyp | hyr
      · rw [hxp, hyp]
        exact Nat.le_add_right _ _
      · obtain ⟨hys, hyt⟩ := hrest y hyr
        rw [hxp, hself, hyt]
        exact Nat.add_le_add (hmin y hys) hpass
    · obtain ⟨hxs, hxt⟩ := hrest x hxr
      rw [hxt]
      rcases List.mem_cons.mp hy with hyp | hyr
      · rw [hyp, hself]
        exact (h.spread x hxs p hp).trans (by omega)
      · obtain ⟨hys, hyt⟩ := hrest y hyr
        rw [hyt]
        exact h.spread x hxs y hys
  refine ⟨⟨hnodup.of_cons, hstride, ?_, hclose.mono fun x hx ↦ List.mem_cons_of_mem p hx⟩, hmin,
    hclose⟩
  have hstride' : ∀ x, (s.switch v).stride x =
      Function.update s.stride p (s.stride p + v.pass (s.priority p)) x := by
    intro x
    rw [switch_of_root hroot]
  have hord : (s.switch v).pool.Ordered total := by
    rw [switch_of_root hroot]
    refine h.ordered.remove_root hroot (fun x hx y hy hxp hyp ↦ ?_) h.nodup
    refine (lt_iff _ _ _).trans ?_
    change (Function.update s.stride p (s.stride p + v.pass (s.priority p)) x -
      Function.update s.stride p (s.stride p + v.pass (s.priority p)) y).toInt < 0 ↔ _
    rw [← hstride', ← hstride', hstride, hstride, hother x hxp, hother y hyp,
      toInt_ofNat_sub v.big_lt (h.spread x hx y hy) (h.spread y hy x hx)]
    omega
  exact hord.congr fun x hx ↦ (hrest x hx).2

/-! ## A closed system -/

/-- The scheduler with its accounts. -/
structure Hist where
  rq : Rq
  /-- The strides without the wrap. -/
  total : ℕ → ℕ
  /-- How often a process has been picked. -/
  picks : ℕ → ℕ
  /-- The processes that have been woken up since the last `schedule`. -/
  joined : List ℕ

/-- The process that an action picks. -/
def Act.picked (s : Rq) : Act → Option ℕ
  | .schedule b => (s.requeue b).pool.root
  | _ => none

/-- One action, with the accounts. -/
def Hist.step (v : Version) (h : Hist) (a : Act) : Hist where
  rq := h.rq.step v a
  total :=
    match a.picked h.rq with
    | none => h.total
    | some p => Function.update h.total p (h.total p + (v.pass (h.rq.priority p)).toNat)
  picks :=
    match a.picked h.rq with
    | none => h.picks
    | some p => Function.update h.picks p (h.picks p + 1)
  joined :=
    match a with
    | .wakeup p => p :: h.joined
    | .setPriority _ => h.joined
    | .schedule _ => []

/-- The start of a run with accounts. -/
def Hist.start (priority : ℕ → BitVec 32) : Hist :=
  ⟨Stride.start priority, fun _ ↦ 0, fun _ ↦ 0, []⟩

/-- The run of a list of actions. -/
def Hist.run (v : Version) (h : Hist) (acts : List Act) : Hist := acts.foldl (Hist.step v) h

theorem Hist.run_concat (v : Version) (h : Hist) (acts : List Act) (a : Act) :
    h.run v (acts ++ [a]) = (h.run v acts).step v a := by
  rw [run, run, List.foldl_append, List.foldl_cons, List.foldl_nil]

/-- The actions of a closed system: the processes are woken up, and then the running one is
preempted over and over. -/
def closed (ps : List ℕ) (n : ℕ) : List Act :=
  ps.map .wakeup ++ List.replicate n (.schedule true)

/-- What holds in a closed system between two rounds. -/
structure Closed (v : Version) (ps : List ℕ) (priority : ℕ → BitVec 32) (h : Hist) : Prop where
  queue : Queue v h.rq h.total
  current : ∀ p, h.rq.current = some p → p ∉ h.rq.pool.toList
  mem_iff : ∀ p, p ∈ ps ↔ p ∈ h.rq.pool.toList ∨ h.rq.current = some p
  priority_eq : h.rq.priority = priority
  total_eq : ∀ p, h.total p = h.picks p * (v.pass (priority p)).toNat
  spread : Spread v h.total ps

/-- The running process is queued again: now the queue is the whole system. -/
theorem Closed.requeue {ps : List ℕ} {priority : ℕ → BitVec 32} {h : Hist}
    (hc : Closed v ps priority h) :
    Queue v (h.rq.requeue true) h.total ∧ (h.rq.requeue true).priority = priority ∧
      ∀ p, p ∈ ps ↔ p ∈ (h.rq.requeue true).pool.toList := by
  rw [Rq.requeue]
  cases hcur : h.rq.current with
  | none =>
    refine ⟨hc.queue, hc.priority_eq, fun p ↦ ?_⟩
    rw [hc.mem_iff, hcur]
    exact ⟨fun hp ↦ hp.resolve_right (by rintro ⟨⟩), .inl⟩
  | some c =>
    refine ⟨hc.queue.enqueue (hc.current c hcur) ?_, hc.priority_eq, fun p ↦ ?_⟩
    · refine hc.spread.mono fun x hx ↦ (hc.mem_iff x).mpr ?_
      rcases List.mem_cons.mp hx with rfl | hx
      · exact .inr hcur
      · exact .inl hx
    · change _ ↔ p ∈ (h.rq.strideEnqueue c).pool.toList
      rw [hc.mem_iff, Rq.strideEnqueue, mem_insert, hcur, or_comm]
      exact or_congr_left ⟨fun hp ↦ (Option.some.inj hp).symm, fun hp ↦ by rw [hp]⟩

/-- One round of a closed system. -/
theorem Closed.step {ps : List ℕ} {priority : ℕ → BitVec 32} {h : Hist}
    (hc : Closed v ps priority h) (hpass : ∀ p ∈ ps, (v.pass (priority p)).toNat ≤ v.big.toNat) :
    Closed v ps priority (h.step v (.schedule true)) := by
  obtain ⟨hq, hprio, hmem⟩ := hc.requeue
  cases hroot : (h.rq.requeue true).pool.root with
  | none =>
    have hnil : (h.rq.requeue true).pool.toList = [] := by
      rw [root_eq_none_iff.mp hroot, toList_nil]
    have hempty : ∀ p, p ∉ ps := fun p hp ↦ by
      rw [hmem, hnil] at hp
      exact List.not_mem_nil hp
    have hrq : h.rq.schedule v true = { h.rq.requeue true with current := none } :=
      switch_of_none hroot
    simp only [Hist.step, Act.picked, hroot, Rq.step, hrq]
    refine ⟨⟨hq.nodup, hq.stride, hq.ordered, hq.spread⟩, (by rintro p ⟨⟩), fun p ↦ ?_, hprio,
      hc.total_eq, fun x hx ↦ absurd hx (hempty x)⟩
    rw [hnil]
    exact ⟨fun hp ↦ absurd hp (hempty p), fun hp ↦ absurd hp (by rintro (⟨⟨⟩⟩ | ⟨⟨⟩⟩))⟩
  | some p =>
    have hp : p ∈ ps := (hmem p).mpr (mem_of_root hroot)
    have hprio' : h.rq.priority p = priority p := by rw [hc.priority_eq]
    obtain ⟨hq', -, hspread⟩ := hq.pick (v := v) hroot (by rw [hprio]; exact hpass p hp) rfl
    have hperm := switch_perm v hroot
    have hcur : ((h.rq.requeue true).switch v).current = some p := by rw [switch_of_root hroot]
    have hnodup := hperm.nodup_iff.mp hq.nodup
    have hmem' : ∀ x, x ∈ ps ↔ x ∈ p :: ((h.rq.requeue true).switch v).pool.toList := fun x ↦ by
      rw [hmem, hperm.mem_iff]
    simp only [Hist.step, Act.picked, hroot, Rq.step, Rq.schedule]
    rw [hprio] at hq' hspread
    rw [hprio']
    refine ⟨hq', fun x hx ↦ ?_, fun x ↦ ?_, ?_, fun x ↦ ?_, hspread.mono fun x hx ↦ (hmem' x).mp hx⟩
    · rw [hcur] at hx
      exact Option.some.inj hx ▸ hnodup.notMem
    · rw [hmem', List.mem_cons, hcur, or_comm]
      exact or_congr_right ⟨fun hx ↦ by rw [hx], fun hx ↦ (Option.some.inj hx).symm⟩
    · rw [switch_of_root hroot, hprio]
    · rcases eq_or_ne x p with rfl | hne
      · simp only [Function.update_self]
        rw [hc.total_eq, Nat.succ_mul]
      · simp only [Function.update_of_ne hne]
        rw [hc.total_eq]

/-- The processes of a closed system have been woken up. -/
theorem closed_start (v : Version) {ps : List ℕ} (hnodup : ps.Nodup) (priority : ℕ → BitVec 32) :
    Closed v ps priority ((Hist.start priority).run v (ps.map .wakeup)) ∧
      (∀ p, ((Hist.start priority).run v (ps.map .wakeup)).total p = 0) ∧
      (∀ p, ((Hist.start priority).run v (ps.map .wakeup)).picks p = 0) ∧
      ((Hist.start priority).run v (ps.map .wakeup)).rq.current = none := by
  induction ps using List.reverseRecOn with
  | nil =>
    refine ⟨⟨⟨List.nodup_nil, fun _ ↦ rfl, trivial, fun x hx ↦ absurd hx List.not_mem_nil⟩, ?_, ?_,
      rfl,
      fun p ↦ (Nat.zero_mul _).symm, fun x hx ↦ absurd hx List.not_mem_nil⟩, fun _ ↦ rfl,
      fun _ ↦ rfl, rfl⟩
    · rintro p ⟨⟩
    · exact fun p ↦ ⟨fun hp ↦ absurd hp List.not_mem_nil, by rintro (⟨⟨⟩⟩ | ⟨⟨⟩⟩)⟩
  | append_singleton ps p ih =>
    obtain ⟨hps, hp⟩ : ps.Nodup ∧ p ∉ ps := by
      rw [List.nodup_append] at hnodup
      exact ⟨hnodup.1, fun hp ↦ hnodup.2.2 p hp p (List.mem_singleton_self p) rfl⟩
    obtain ⟨hc, htotal, hpicks, hcur⟩ := ih hps
    rw [List.map_append, List.map_singleton, Hist.run_concat]
    generalize (Hist.start priority).run v (ps.map .wakeup) = h at hc htotal hpicks hcur
    have hnot : p ∉ h.rq.pool.toList := fun hmem ↦ hp ((hc.mem_iff p).mpr (.inl hmem))
    have hspread : ∀ l, Spread v h.total l := fun l x _ y _ ↦ by
      rw [htotal, htotal]
      exact Nat.zero_le _
    refine ⟨⟨hc.queue.enqueue hnot (hspread _), fun x hx ↦ ?_, fun x ↦ ?_, hc.priority_eq, fun x ↦
      ?_, hspread _⟩, htotal, hpicks, hcur⟩
    · exact absurd (hcur.symm.trans hx) (by rintro ⟨⟩)
    · have hmem : x ∈ ps ↔ x ∈ h.rq.pool.toList := by
        rw [hc.mem_iff, hcur]
        exact ⟨fun hx ↦ hx.resolve_right (by rintro ⟨⟩), .inl⟩
      change _ ↔ x ∈ (h.rq.strideEnqueue p).pool.toList ∨ h.rq.current = some x
      rw [Rq.strideEnqueue, mem_insert, List.mem_append, List.mem_singleton, hmem, hcur, or_comm]
      exact ⟨.inl, fun hx ↦ hx.resolve_right (by rintro ⟨⟩)⟩
    · change h.total x = h.picks x * _
      rw [htotal, hpicks, Nat.zero_mul]

theorem closed_run (v : Version) {ps : List ℕ} (hnodup : ps.Nodup) {priority : ℕ → BitVec 32}
    (hpass : ∀ p ∈ ps, (v.pass (priority p)).toNat ≤ v.big.toNat) (n : ℕ) :
    Closed v ps priority ((Hist.start priority).run v (closed ps n)) := by
  induction n with
  | zero =>
    rw [closed, List.replicate_zero, List.append_nil]
    exact (closed_start v hnodup priority).1
  | succ n ih =>
    rw [closed, List.replicate_succ', ← List.append_assoc, Hist.run_concat]
    exact ih.step hpass

theorem sum_update_succ (f : ℕ → ℕ) {s : Finset ℕ} {p : ℕ} (hp : p ∈ s) :
    ∑ x ∈ s, Function.update f p (f p + 1) x = ∑ x ∈ s, f x + 1 := by
  rw [Finset.sum_update_of_mem hp, Finset.sdiff_singleton_eq_erase, ← Finset.add_sum_erase s f hp]
  omega

/-- A round of a closed system that is not empty picks one of its processes. -/
theorem Closed.step_picks {ps : List ℕ} {priority : ℕ → BitVec 32} {h : Hist}
    (hc : Closed v ps priority h) (hne : ps ≠ []) :
    ∑ p ∈ ps.toFinset, (h.step v (.schedule true)).picks p = ∑ p ∈ ps.toFinset, h.picks p + 1 := by
  obtain ⟨-, -, hmem⟩ := hc.requeue
  cases hroot : (h.rq.requeue true).pool.root with
  | none =>
    obtain ⟨p, hp⟩ := List.exists_mem_of_ne_nil ps hne
    rw [hmem, root_eq_none_iff.mp hroot, toList_nil] at hp
    exact absurd hp List.not_mem_nil
  | some p =>
    simp only [Hist.step, Act.picked, hroot]
    exact sum_update_succ h.picks (List.mem_toFinset.mpr ((hmem p).mpr (mem_of_root hroot)))

/-- As many processes are picked as there are rounds. -/
theorem closed_picks (v : Version) {ps : List ℕ} (hnodup : ps.Nodup) {priority : ℕ → BitVec 32}
    (hpass : ∀ p ∈ ps, (v.pass (priority p)).toNat ≤ v.big.toNat) (hne : ps ≠ []) (n : ℕ) :
    ∑ p ∈ ps.toFinset, ((Hist.start priority).run v (closed ps n)).picks p = n := by
  induction n with
  | zero =>
    rw [closed, List.replicate_zero, List.append_nil]
    exact Finset.sum_eq_zero fun p _ ↦ (closed_start v hnodup priority).2.2.1 p
  | succ n ih =>
    have hrun : closed ps (n + 1) = closed ps n ++ [.schedule true] := by
      rw [closed, closed, List.replicate_succ', List.append_assoc]
    rw [hrun, Hist.run_concat, (closed_run v hnodup hpass n).step_picks hne, ih]

theorem pass_eq (v : Version) {priority : BitVec 32} (h : 1 ≤ priority.toNat) :
    (v.pass priority).toNat = v.big.toNat / priority.toNat := by
  rw [Version.pass, if_neg, BitVec.toNat_udiv]
  rintro rfl
  exact absurd h (by decide)

/-- In a closed system the processes get shares in proportion to their priorities: after any number
of rounds the totals, which are what the strides are modulo `2 ^ 32`, are at most `BIG_STRIDE`
apart, and each round has picked one of them. -/
theorem proportional_shares (v : Version) {ps : List ℕ} (hnodup : ps.Nodup)
    {priority : ℕ → BitVec 32}
    (hprio : ∀ p ∈ ps, 1 ≤ (priority p).toNat ∧ (priority p).toNat ≤ v.big.toNat) (n : ℕ) :
    ∃ h, h = (Hist.start priority).run v (closed ps n) ∧
      (∀ p, h.rq.stride p = BitVec.ofNat 32 (h.total p)) ∧
      (ps ≠ [] → ∑ p ∈ ps.toFinset, h.picks p = n) ∧
      (∀ i ∈ ps, ∀ j ∈ ps, |(h.total i : ℤ) - h.total j| ≤ v.big.toNat) ∧
      ∀ i ∈ ps, ∀ j ∈ ps, |(h.picks i : ℤ) * (v.big.toNat / (priority i).toNat : ℕ) -
        h.picks j * (v.big.toNat / (priority j).toNat : ℕ)| ≤ v.big.toNat := by
  have hpass : ∀ p ∈ ps, (v.pass (priority p)).toNat ≤ v.big.toNat := fun p hp ↦ by
    rw [pass_eq v (hprio p hp).1]
    exact Nat.div_le_self _ _
  have hc := closed_run v hnodup hpass n
  have habs : ∀ i ∈ ps, ∀ j ∈ ps, |(((Hist.start priority).run v (closed ps n)).total i : ℤ) -
      ((Hist.start priority).run v (closed ps n)).total j| ≤ v.big.toNat := by
    intro i hi j hj
    have hij := hc.spread i hi j hj
    have hji := hc.spread j hj i hi
    rw [abs_le]
    constructor
    · omega
    · omega
  refine ⟨_, rfl, hc.queue.stride, fun hne ↦ closed_picks v hnodup hpass hne n, habs,
    fun i hi j hj ↦ ?_⟩
  have hpair := habs i hi j hj
  rw [hc.total_eq, hc.total_eq, pass_eq v (hprio i hi).1, pass_eq v (hprio j hj).1] at hpair
  rwa [Nat.cast_mul, Nat.cast_mul] at hpair

/-- Two processes with the priorities 1 and 2 in lab 6, whose strides wrap after a few rounds. -/
theorem proportional_shares_pair : ∃ h,
    h = (Hist.start fun p ↦ BitVec.ofNat 32 p).run lab6 (closed [1, 2] 7) ∧
      (∀ p, h.rq.stride p = BitVec.ofNat 32 (h.total p)) ∧
      ([1, 2] ≠ [] → ∑ p ∈ [1, 2].toFinset, h.picks p = 7) ∧
      (∀ i ∈ [1, 2], ∀ j ∈ [1, 2], |(h.total i : ℤ) - h.total j| ≤ lab6.big.toNat) ∧
      ∀ i ∈ [1, 2], ∀ j ∈ [1, 2],
        |(h.picks i : ℤ) * (lab6.big.toNat / (BitVec.ofNat 32 i).toNat : ℕ) -
          h.picks j * (lab6.big.toNat / (BitVec.ofNat 32 j).toNat : ℕ)| ≤ lab6.big.toNat :=
  @proportional_shares lab6 [1, 2] (by decide) (fun p ↦ BitVec.ofNat 32 p) (by decide) 7

/-! ## An open system -/

/-- The run queue at its fullest in the course of an action, from which `stride_pick_next` takes a
process when the action is a `schedule`. -/
def Act.full (s : Rq) : Act → Rq
  | .wakeup p => s.strideEnqueue p
  | .setPriority _ => s
  | .schedule b => s.requeue b

/-- The comparison is right: the totals of the queued processes are at most `BIG_STRIDE` apart,
`proc_stride_comp_f` compares them, and the first process of the heap has the smallest one. -/
structure Sound (v : Version) (s : Rq) (total : ℕ → ℕ) : Prop where
  spread : Spread v total s.pool.toList
  comp : ∀ x ∈ s.pool.toList, ∀ y ∈ s.pool.toList,
    s.procStrideCompF x y = ((total x : ℤ) - total y).sign
  smallest : ∀ p, s.pool.root = some p → ∀ x ∈ s.pool.toList, total p ≤ total x

/-- A process that is woken up has a total that is not too far from the queued ones, and one that is
queued again after it ran has one that is not too far from those that were woken up meanwhile. -/
def Act.Fits (v : Version) (h : Hist) : Act → Prop
  | .wakeup p => ∀ x ∈ h.rq.pool.toList,
      h.total p ≤ h.total x + v.big.toNat ∧ h.total x ≤ h.total p + v.big.toNat
  | .setPriority _ => True
  | .schedule b => b = true → ∀ c, h.rq.current = some c → ∀ x ∈ h.joined,
      h.total c ≤ h.total x + v.big.toNat ∧ h.total x ≤ h.total c + v.big.toNat

/-- A condition on every action of a run. -/
def Hist.Along (v : Version) (P : Hist → Act → Prop) : Hist → List Act → Prop
  | _, [] => True
  | h, a :: acts => P h a ∧ (h.step v a).Along v P acts

/-- What holds between two actions, as long as every comparison has been right. -/
structure Open (v : Version) (h : Hist) : Prop where
  queue : Queue v h.rq h.total
  current : ∀ p, h.rq.current = some p → p ∉ h.rq.pool.toList
  priority_ne : ∀ p, h.rq.priority p ≠ 0
  /-- The running process is close to those that were queued when it was picked. -/
  close : ∀ c, h.rq.current = some c → ∀ x ∈ h.rq.pool.toList, x ∉ h.joined →
    h.total c ≤ h.total x + v.big.toNat ∧ h.total x ≤ h.total c + v.big.toNat
  joined : ∀ x ∈ h.joined, x ∈ h.rq.pool.toList

variable {h : Hist}

theorem Queue.sound (h : Queue v s total) : Sound v s total where
  spread := h.spread
  comp x hx y hy := procStrideCompF_eq h.stride (h.spread x hx y hy) (h.spread y hy x hx)
  smallest _ hroot _ hx := h.ordered.root_le hroot hx

/-- A process fits into a queue when it is close to every member. -/
theorem spread_cons_iff (hs : Spread v total s.pool.toList) :
    Spread v total (p :: s.pool.toList) ↔ ∀ x ∈ s.pool.toList,
      total p ≤ total x + v.big.toNat ∧ total x ≤ total p + v.big.toNat := by
  constructor
  · intro hall x hx
    have hx' : x ∈ p :: s.pool.toList := List.mem_cons_of_mem p hx
    exact ⟨hall p List.mem_cons_self x hx', hall x hx' p List.mem_cons_self⟩
  · intro hall x hx y hy
    rcases List.mem_cons.mp hx with hxp | hxs
    · rcases List.mem_cons.mp hy with hyp | hys
      · rw [hxp, hyp]
        exact Nat.le_add_right _ _
      · rw [hxp]
        exact (hall y hys).1
    · rcases List.mem_cons.mp hy with hyp | hys
      · rw [hyp]
        exact (hall x hxs).2
      · exact hs x hxs y hys

/-- Whether a process that joins fits is whether the queue stays sound. -/
theorem sound_enqueue_iff (hq : Queue v s total) (hp : p ∉ s.pool.toList) :
    (Sound v (s.strideEnqueue p) total ↔ Spread v total (p :: s.pool.toList)) ∧
      (Sound v (s.strideEnqueue p) total → Queue v (s.strideEnqueue p) total) := by
  have hspread : Sound v (s.strideEnqueue p) total → Spread v total (p :: s.pool.toList) :=
    fun hs ↦ hs.spread.mono fun x hx ↦ mem_insert.mpr (List.mem_cons.mp hx)
  exact ⟨⟨hspread, fun hs ↦ (hq.enqueue hp hs).sound⟩, fun hs ↦ hq.enqueue hp (hspread hs)⟩

/-- The queue is sound in the course of an action exactly when the process that joins fits. -/
theorem Open.sound_iff (ho : Open v h) {a : Act} (ha : a.Legal h.rq) :
    (Sound v (a.full h.rq) h.total ↔ a.Fits v h) ∧
      (Sound v (a.full h.rq) h.total → Queue v (a.full h.rq) h.total) := by
  cases a with
  | wakeup p =>
    obtain ⟨hiff, hqueue⟩ := sound_enqueue_iff ho.queue ha.1
    exact ⟨hiff.trans (spread_cons_iff ho.queue.spread), hqueue⟩
  | setPriority priority => exact ⟨⟨fun _ ↦ trivial, fun _ ↦ ho.queue.sound⟩, fun _ ↦ ho.queue⟩
  | schedule b =>
    cases hcur : h.rq.current with
    | none =>
      have hre : Act.full h.rq (.schedule b) = h.rq := by rw [Act.full, Rq.requeue, hcur]
      rw [hre]
      refine ⟨⟨fun _ _ c hc ↦ ?_, fun _ ↦ ho.queue.sound⟩, fun _ ↦ ho.queue⟩
      rw [hcur] at hc
      cases hc
    | some c =>
      cases b with
      | false =>
        have hre : Act.full h.rq (.schedule false) = h.rq := by
          rw [Act.full, Rq.requeue, hcur]
          rfl
        rw [hre]
        exact ⟨⟨fun _ hb ↦ absurd hb (by decide), fun _ ↦ ho.queue.sound⟩, fun _ ↦ ho.queue⟩
      | true =>
        have hre : Act.full h.rq (.schedule true) = h.rq.strideEnqueue c := by
          rw [Act.full, Rq.requeue, hcur]
          rfl
        rw [hre]
        obtain ⟨hiff, hqueue⟩ := sound_enqueue_iff ho.queue (ho.current c hcur)
        refine ⟨hiff.trans ((spread_cons_iff ho.queue.spread).trans ⟨?_, ?_⟩), hqueue⟩
        · intro hall _ c' hc' x hx
          rw [hcur] at hc'
          rw [← Option.some.inj hc']
          exact hall x (ho.joined x hx)
        · intro hfits x hx
          -- the processes that were queued when it was picked are close to it anyway
          by_cases hjoined : x ∈ h.joined
          · exact hfits rfl c hcur x hjoined
          · exact ho.close c hcur x hx hjoined

theorem priority_requeue (s : Rq) (b : Bool) : (s.requeue b).priority = s.priority := by
  rw [Rq.requeue]
  cases s.current with
  | none => rfl
  | some p => cases b <;> rfl

/-- What an action keeps. -/
theorem Open.step (ho : Open v h) {a : Act} (ha : a.Legal h.rq)
    (hs : Sound v (a.full h.rq) h.total) : Open v (h.step v a) := by
  have hq := (ho.sound_iff ha).2 hs
  cases a with
  | wakeup p =>
    refine ⟨hq, fun x hx hmem ↦ ?_, ho.priority_ne, fun c hc x hx hnot ↦ ?_, fun x hx ↦ ?_⟩
    · rcases mem_insert.mp hmem with rfl | hmem
      · exact ha.2.1 hx
      · exact ho.current x hx hmem
    · rcases mem_insert.mp hx with rfl | hx
      · exact absurd List.mem_cons_self hnot
      · exact ho.close c hc x hx fun hj ↦ hnot (List.mem_cons_of_mem p hj)
    · rcases List.mem_cons.mp hx with rfl | hx
      · exact mem_insert.mpr (.inl rfl)
      · exact mem_insert.mpr (.inr (ho.joined x hx))
  | setPriority priority =>
    have hstep : (h.step v (.setPriority priority)).rq = h.rq.lab6SetPriority priority := rfl
    have htotal : (h.step v (.setPriority priority)).total = h.total := rfl
    have hjoined : (h.step v (.setPriority priority)).joined = h.joined := rfl
    cases hcur : h.rq.current with
    | none =>
      rw [Rq.lab6SetPriority, hcur] at hstep
      refine ⟨?_, ?_, ?_, ?_, ?_⟩ <;> rw [hstep]
      · exact ho.queue
      · exact ho.current
      · exact ho.priority_ne
      · exact ho.close
      · exact ho.joined
    | some c =>
      rw [Rq.lab6SetPriority, hcur] at hstep
      refine ⟨?_, ?_, ?_, ?_, ?_⟩ <;> rw [hstep]
      · exact ⟨ho.queue.nodup, ho.queue.stride, ho.queue.ordered, ho.queue.spread⟩
      · exact fun x hx ↦ ho.current x (hcur.trans hx)
      · intro x
        change Function.update h.rq.priority c (if priority = 0 then 1 else priority) x ≠ 0
        rcases eq_or_ne x c with rfl | hne
        · rw [Function.update_self]
          split
          · decide
          · assumption
        · rw [Function.update_of_ne hne]
          exact ho.priority_ne x
      · exact fun x hx ↦ ho.close x (hcur.trans hx)
      · exact ho.joined
  | schedule b =>
    -- without a process in the queue nothing is charged
    cases hroot : (h.rq.requeue b).pool.root with
    | none =>
      have hstep : (h.step v (.schedule b)).rq = { h.rq.requeue b with current := none } :=
        switch_of_none hroot
      have htotal : (h.step v (.schedule b)).total = h.total := by
        simp only [Hist.step, Act.picked, hroot]
      refine ⟨?_, ?_, ?_, ?_, fun x hx ↦ absurd hx List.not_mem_nil⟩
      · rw [hstep, htotal]
        exact ⟨hq.nodup, hq.stride, hq.ordered, hq.spread⟩
      · rw [hstep]
        rintro p ⟨⟩
      · rw [hstep]
        exact fun p ↦ by rw [priority_requeue]; exact ho.priority_ne p
      · rw [hstep]
        rintro p ⟨⟩
    | some p =>
      have htotal : (h.step v (.schedule b)).total = Function.update h.total p
          (h.total p + (v.pass ((h.rq.requeue b).priority p)).toNat) := by
        simp only [Hist.step, Act.picked, hroot, priority_requeue]
      have hne : (h.rq.requeue b).priority p ≠ 0 := by
        rw [priority_requeue]
        exact ho.priority_ne p
      have hpass : (v.pass ((h.rq.requeue b).priority p)).toNat ≤ v.big.toNat := by
        rw [Version.pass, if_neg hne, BitVec.toNat_udiv]
        exact Nat.div_le_self _ _
      obtain ⟨hq', -, hspread⟩ := hq.pick hroot hpass htotal
      have hnodup := (switch_perm v hroot).nodup_iff.mp hq.nodup
      have hcur : ∀ c, ((h.rq.requeue b).switch v).current = some c → c = p := fun c hc ↦ by
        rw [switch_of_root hroot] at hc
        exact (Option.some.inj hc).symm
      refine ⟨hq', fun c hc ↦ ?_, fun x ↦ ?_, fun c hc x hx _ ↦ ?_,
        fun x hx ↦ absurd hx List.not_mem_nil⟩
      · rw [hcur c hc]
        exact hnodup.notMem
      · change (h.rq.schedule v b).priority x ≠ 0
        rw [priority_schedule]
        exact ho.priority_ne x
      · have hx' : x ∈ p :: ((h.rq.requeue b).switch v).pool.toList := List.mem_cons_of_mem p hx
        rw [hcur c hc]
        exact ⟨hspread p List.mem_cons_self x hx', hspread x hx' p List.mem_cons_self⟩

/-- The start of a run with accounts is in order. -/
theorem open_start (v : Version) {priority : ℕ → BitVec 32} (hprio : ∀ p, priority p ≠ 0) :
    Open v (.start priority) where
  queue := ⟨List.nodup_nil, fun _ ↦ rfl, trivial, fun x hx ↦ absurd hx List.not_mem_nil⟩
  current := by rintro p ⟨⟩
  priority_ne := hprio
  close := by rintro p ⟨⟩
  joined x hx := absurd hx List.not_mem_nil

/-- The comparison is right in every state of a run exactly when every process that joins the queue
has a total that is at most `BIG_STRIDE` away: a process that is woken up from those of the queue,
and one that ran from those that have been woken up meanwhile. -/
theorem sound_iff_fits (v : Version) {priority : ℕ → BitVec 32} (hprio : ∀ p, priority p ≠ 0)
    {acts : List Act} (hlegal : (Hist.start priority).Along v (fun h a ↦ a.Legal h.rq) acts) :
    (Hist.start priority).Along v (fun h a ↦ Sound v (a.full h.rq) h.total) acts ↔
      (Hist.start priority).Along v (fun h a ↦ a.Fits v h) acts := by
  have hall : ∀ (acts : List Act) (h : Hist), Open v h → h.Along v (fun h a ↦ a.Legal h.rq) acts →
      (h.Along v (fun h a ↦ Sound v (a.full h.rq) h.total) acts ↔
        h.Along v (fun h a ↦ a.Fits v h) acts) := by
    intro acts
    induction acts with
    | nil => exact fun _ _ _ ↦ Iff.rfl
    | cons a acts ih =>
      rintro h ho ⟨ha, hrest⟩
      have hiff := (ho.sound_iff ha).1
      constructor
      · rintro ⟨hs, hsounds⟩
        exact ⟨hiff.mp hs, (ih _ (ho.step ha hs) hrest).mp hsounds⟩
      · rintro ⟨hfit, hfits⟩
        have hs := hiff.mpr hfit
        exact ⟨hs, (ih _ (ho.step ha hs) hrest).mpr hfits⟩
  exact hall acts _ (open_start v hprio) hlegal

/-- Two processes that are there from the beginning fit. -/
theorem sound_pair : (Hist.start fun _ ↦ 1).Along lab6 (fun h a ↦ Sound lab6 (a.full h.rq) h.total)
    [.wakeup 1, .wakeup 2, .schedule true] := by
  refine (sound_iff_fits lab6 (fun _ ↦ by decide) ?_).mpr ?_
  · exact ⟨⟨List.not_mem_nil, by rintro ⟨⟩, by decide⟩, ⟨by decide, by rintro ⟨⟩, by decide⟩,
      trivial, trivial⟩
  · refine ⟨fun x hx ↦ absurd hx List.not_mem_nil, fun x _ ↦ ⟨?_, ?_⟩, fun _ c hc ↦ ?_, trivial⟩
    · exact Nat.zero_le _
    · exact Nat.zero_le _
    · cases hc

/-- Process 1 runs twice before process 2 is created. -/
def latecomer : List Act :=
  [.wakeup 1, .schedule true, .schedule true, .wakeup 2, .schedule true]

/-- In lab 6 the process 1, with a stride of `2 ^ 32 - 2`, counts as the smaller one then. -/
theorem latecomer_unsound : ∃ acts,
    (Hist.start fun _ ↦ 1).Along lab6 (fun h a ↦ a.Legal h.rq) acts ∧
      ¬(Hist.start fun _ ↦ 1).Along lab6 (fun h a ↦ Sound lab6 (a.full h.rq) h.total) acts := by
  refine ⟨latecomer, ⟨⟨List.not_mem_nil, by rintro ⟨⟩, by decide⟩, trivial, trivial,
    ⟨by decide, by decide, by decide⟩, trivial, trivial⟩, ?_⟩
  rintro ⟨-, -, -, -, hsound, -⟩
  have hle := hsound.smallest 1 (by decide) 2 (by decide)
  exact absurd hle (by decide)

/-! ## The scheduler of the kernel -/

/-- What the scheduler sees of the kernel. -/
def ofKernel (s : Kernel) : Rq where
  pool := s.rq.pool
  stride p := (s.proc p).stride
  priority p := (s.proc p).priority
  current := if s.current = s.idleproc then none else some s.current

/-- A change of a process that the scheduler does not see. -/
theorem ofKernel_setProc (s : Kernel) (p : ℕ) {f : Proc → Proc}
    (hstride : (f (s.proc p)).stride = (s.proc p).stride)
    (hpriority : (f (s.proc p)).priority = (s.proc p).priority) :
    ofKernel (s.setProc p f) = ofKernel s := by
  have hs : ∀ x, ((s.setProc p f).proc x).stride = (s.proc x).stride := fun x ↦ by
    rcases eq_or_ne x p with rfl | hne
    · rw [Kernel.setProc_self, hstride]
    · rw [Kernel.setProc_of_ne s hne]
  have hp : ∀ x, ((s.setProc p f).proc x).priority = (s.proc x).priority := fun x ↦ by
    rcases eq_or_ne x p with rfl | hne
    · rw [Kernel.setProc_self, hpriority]
    · rw [Kernel.setProc_of_ne s hne]
  simp only [ofKernel, hs, hp]
  rfl

theorem ofKernel_strideEnqueue (s : Kernel) (p : ℕ) :
    ofKernel (s.strideEnqueue p) = (ofKernel s).strideEnqueue p := by
  have hset := ofKernel_setProc s p (f := fun q ↦ { q with
    timeSlice := if q.timeSlice = 0 ∨ Kernel.maxTimeSlice < q.timeSlice then Kernel.maxTimeSlice
      else q.timeSlice }) rfl rfl
  exact (Rq.mk.injEq ..).mpr ⟨rfl, congrArg Rq.stride hset, congrArg Rq.priority hset, rfl⟩

/-- The running process joins the queue of the kernel as it does here. -/
theorem ofKernel_requeue (s : Kernel) : ofKernel s.requeue =
    (ofKernel s).requeue (decide ((s.proc s.current).state = .runnable)) := by
  have hset := ofKernel_setProc s s.current (f := fun q ↦ { q with needResched := false }) rfl rfl
  rw [Kernel.requeue, Rq.requeue]
  by_cases hidle : s.current = s.idleproc
  · have hcur : (ofKernel s).current = none := if_pos hidle
    rw [hcur]
    simp only
    split
    · have hidle' : s.current =
          (s.setProc s.current fun q ↦ { q with needResched := false }).idleproc := hidle
      rw [Kernel.schedClassEnqueue_of_eq hidle', hset]
    · exact hset
  · have hcur : (ofKernel s).current = some s.current := if_neg hidle
    rw [hcur]
    by_cases hrun : (s.proc s.current).state = .runnable
    · have hidle' : s.current ≠
          (s.setProc s.current fun q ↦ { q with needResched := false }).idleproc := hidle
      rw [if_pos hrun, Kernel.schedClassEnqueue_of_ne hidle', ofKernel_strideEnqueue, hset]
      simp only [hrun, decide_true, if_true]
    · rw [if_neg hrun, hset]
      simp only [hrun, decide_false, Bool.false_eq_true, if_false]

/-- The kernel picks the process that is picked here. -/
theorem ofKernel_switch (s : Kernel) (hidle : s.idleproc ∉ s.rq.pool.toList) :
    ofKernel s.switch = (ofKernel s).switch lab8 := by
  cases hroot : s.rq.pool.root with
  | none =>
    have hroot' : (ofKernel s).pool.root = none := hroot
    rw [switch_of_none hroot', Kernel.switch, hroot]
    simp only [ofKernel, Kernel.setCurrent, if_true]
  | some next =>
    have hroot' : (ofKernel s).pool.root = some next := hroot
    have hne : next ≠ s.idleproc := fun heq ↦ hidle (heq ▸ mem_of_root hroot)
    have hstride : ∀ x, ((s.setProc next fun q ↦
        { q with stride := q.stride + Kernel.strideStep q.priority }).proc x).stride =
        Function.update (ofKernel s).stride next
          ((ofKernel s).stride next + lab8.pass ((ofKernel s).priority next)) x := fun x ↦ by
      rcases eq_or_ne x next with rfl | hx
      · rw [Kernel.setProc_self, Function.update_self]
        rfl
      · rw [Kernel.setProc_of_ne s hx, Function.update_of_ne hx]
        rfl
    have hpriority : ∀ x, ((s.setProc next fun q ↦
        { q with stride := q.stride + Kernel.strideStep q.priority }).proc x).priority =
        (ofKernel s).priority x := fun x ↦ by
      rcases eq_or_ne x next with rfl | hx
      · rw [Kernel.setProc_self]
        rfl
      · rw [Kernel.setProc_of_ne s hx]
        rfl
    have hlt : (s.setProc next fun q ↦
        { q with stride := q.stride + Kernel.strideStep q.priority }).strideLt =
        Rq.lt { ofKernel s with
          stride := Function.update (ofKernel s).stride next
            ((ofKernel s).stride next + lab8.pass ((ofKernel s).priority next)) } := by
      funext x y
      rw [Kernel.strideLt, Kernel.strideCompF, hstride, hstride]
      rfl
    rw [switch_of_root hroot', ← hlt, Kernel.switch, hroot, ofKernel]
    simp only [Kernel.setCurrent, Kernel.strideDequeue, hstride, hpriority]
    exact (Rq.mk.injEq ..).mpr ⟨rfl, rfl, rfl, if_neg hne⟩

/-- `schedule` of the kernel is `schedule` of this file. -/
theorem ofKernel_schedule (s : Kernel) (hidle : s.idleproc ∉ s.requeue.rq.pool.toList) :
    ofKernel s.schedule =
      (ofKernel s).schedule lab8 (decide ((s.proc s.current).state = .runnable)) := by
  have hsame : s.requeue.idleproc = s.idleproc := by
    rw [Kernel.requeue]
    simp only [Kernel.schedClassEnqueue]
    split
    · split <;> rfl
    · rfl
  rw [Kernel.schedule, ofKernel_switch _ (hsame ▸ hidle), ofKernel_requeue, Rq.schedule]

end Ucore.Stride
