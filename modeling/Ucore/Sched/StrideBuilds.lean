import Ucore.Lib.SkewRemove
import Ucore.Sched.Stride

/-!
# The two builds of the stride scheduler

`kern/schedule/default_sched_stride.c` of lab 6 keeps the run queue in a skew heap or in a list, as
`USE_SKEW_HEAP` says. The same calls are made of both, and both choose a process with the same
stride every time (`builds_agree`).

## The window

Both compare strides by the sign of their difference in 32 bits, which is no order. As long as the
queued strides lie in a window of `BIG_STRIDE` from some `b`, it is the order of their distances
from `b`: the heap is ordered by that distance, and the scan of the list finds a process at the
least one. The window moves on with every pick, and so does `b`; the heap stays ordered, since two
windows that hold the same strides order them in the same way (`InWindow.lt_iff`).

## The runs

`Agree` says that both queues hold the same processes, each once. Two processes with equal strides
may be chosen differently, and then the queues go apart, so a run picks only while no two strides
are equal (`Op.Legal`); a pick itself has the same stride in both builds in any case (`SamePick`).
-/

namespace Ucore.StrideBuilds

open SkewHeap Stride

/-! ## The builds -/

/-- The fields of the processes and of the run queue that both builds use. -/
structure Procs where
  /-- `proc->lab6_stride`. -/
  stride : ℕ → BitVec 32
  /-- `proc->lab6_priority`. -/
  priority : ℕ → BitVec 32
  /-- `proc->time_slice`. -/
  timeSlice : ℕ → ℤ
  /-- Whether `proc->rq` is the run queue. -/
  rq : ℕ → Bool
  /-- `rq->proc_num`. -/
  procNum : BitVec 32
  /-- `rq->max_time_slice`. -/
  maxTimeSlice : ℤ

namespace Procs

variable (c : Procs) (p : ℕ)

/-- `stride_init`, apart from the queue. -/
def init : Procs := { c with procNum := 0 }

/-- `stride_enqueue` after the insertion. -/
def enqueued : Procs :=
  { c with
    timeSlice := if c.timeSlice p = 0 ∨ c.timeSlice p > c.maxTimeSlice then
      Function.update c.timeSlice p c.maxTimeSlice else c.timeSlice
    rq := Function.update c.rq p true
    procNum := c.procNum + 1 }

/-- `stride_dequeue` after the removal. -/
def dequeued : Procs := { c with procNum := c.procNum - 1 }

/-- `stride_pick_next` after the choice. -/
def picked : Procs :=
  { c with stride := Function.update c.stride p (c.stride p + lab6.pass (c.priority p)) }

/-- How far a stride is from the lower end `b` of a window. -/
def dist (b : BitVec 32) : ℕ := (c.stride p - b).toNat

end Procs

/-- The build with `USE_SKEW_HEAP`. -/
structure HeapBuild where
  pool : SkewHeap ℕ
  procs : Procs

/-- The build without. -/
structure ListBuild where
  runList : List ℕ
  procs : Procs

namespace HeapBuild

variable (s : HeapBuild) (p : ℕ)

/-- The part of the run queue that the heap build of both labs works on. -/
def rq : Rq := ⟨s.pool, s.procs.stride, s.procs.priority, none⟩

def strideInit (c : Procs) : HeapBuild := ⟨.nil, c.init⟩

def strideEnqueue : HeapBuild := ⟨(s.rq.strideEnqueue p).pool, s.procs.enqueued p⟩

def strideDequeue : HeapBuild := ⟨(s.rq.strideDequeue p).pool, s.procs.dequeued⟩

def stridePickNext : Option (ℕ × HeapBuild) :=
  s.pool.root.map fun p ↦ (p, { s with procs := s.procs.picked p })

end HeapBuild

/-- The loop of `stride_pick_next`, with `p` the process found so far. -/
def scan (stride : ℕ → BitVec 32) (p : ℕ) : List ℕ → ℕ
  | [] => p
  | q :: rest => scan stride (if (stride q - stride p).toInt < 0 then q else p) rest

namespace ListBuild

variable (s : ListBuild) (p : ℕ)

def strideInit (c : Procs) : ListBuild := ⟨[], c.init⟩

/-- `stride_enqueue`; the assertion is that the process is in no list. -/
def strideEnqueue : Option ListBuild :=
  if p ∉ s.runList then some ⟨s.runList ++ [p], s.procs.enqueued p⟩ else none

def strideDequeue : Option ListBuild :=
  if p ∈ s.runList ∧ s.procs.rq p = true then some ⟨s.runList.erase p, s.procs.dequeued⟩ else none

def stridePickNext : Option (ℕ × ListBuild) :=
  match s.runList with
  | [] => none
  | p :: rest =>
    some (scan s.procs.stride p rest,
      { s with procs := s.procs.picked (scan s.procs.stride p rest) })

end ListBuild

/-! ## Runs -/

/-- What is asked of the scheduler. -/
inductive Op
  | enqueue (p : ℕ)
  | dequeue (p : ℕ)
  /-- `schedule` picks a process and takes it off the queue. -/
  | next
  /-- The rest of the kernel writes to the processes. -/
  | others (c : Procs)

/-- What a call does in the heap build, and the process that it picks. -/
def HeapBuild.step (s : HeapBuild) : Op → HeapBuild × List (Option ℕ)
  | .enqueue p => (s.strideEnqueue p, [])
  | .dequeue p => (s.strideDequeue p, [])
  | .next =>
    match s.stridePickNext with
    | none => (s, [none])
    | some (p, s') => (s'.strideDequeue p, [some p])
  | .others c => ({ s with procs := c }, [])

/-- What a call does in the list build; there is no answer when an assertion fails. -/
def ListBuild.step (s : ListBuild) : Op → Option (ListBuild × List (Option ℕ))
  | .enqueue p => (s.strideEnqueue p).map fun s' ↦ (s', [])
  | .dequeue p => (s.strideDequeue p).map fun s' ↦ (s', [])
  | .next =>
    match s.stridePickNext with
    | none => some (s, [none])
    | some (p, s') => (s'.strideDequeue p).map fun t ↦ (t, [some p])
  | .others c => some ({ s with procs := c }, [])

/-- The list build after some calls, and the processes that it picked. -/
def ListBuild.run (s : ListBuild) : List Op → Option (ListBuild × List (Option ℕ))
  | [] => some (s, [])
  | op :: ops => (s.step op).bind fun x ↦ (x.1.run ops).map fun y ↦ (y.1, x.2 ++ y.2)

/-- All queued strides lie in the window of `BIG_STRIDE` from `b`. -/
def InWindow (b : BitVec 32) (c : Procs) (l : List ℕ) : Prop := ∀ p ∈ l, c.dist p b ≤ lab6.big.toNat

/-- A call that can be made: a process joins that is not queued, and only a queued one leaves; when
one is picked, no two strides are equal; and the strides of the queued processes are only written by
the scheduler. -/
def Op.Legal (s : HeapBuild) : Op → Prop
  | .enqueue p => p ∉ s.pool.toList
  | .dequeue p => p ∈ s.pool.toList
  | .next => ∀ p ∈ s.pool.toList, ∀ q ∈ s.pool.toList, s.procs.stride p = s.procs.stride q → p = q
  | .others c => ∀ p ∈ s.pool.toList, c.stride p = s.procs.stride p ∧ c.rq p = s.procs.rq p

instance (b : BitVec 32) (c : Procs) (l : List ℕ) : Decidable (InWindow b c l) :=
  inferInstanceAs (Decidable (∀ p ∈ l, _))

instance (s : HeapBuild) : DecidablePred (Op.Legal s) := fun op ↦
  match op with
  | .enqueue _ => inferInstanceAs (Decidable (_ ∉ _))
  | .dequeue _ => inferInstanceAs (Decidable (_ ∈ _))
  | .next => inferInstanceAs (Decidable (∀ p ∈ _, ∀ q ∈ _, _))
  | .others _ => inferInstanceAs (Decidable (∀ p ∈ _, _ ∧ _))

/-- The heap build after legal calls, with the queued strides in a window all the time, and the
processes that it picked. -/
inductive HeapRun (c : Procs) : List Op → HeapBuild → List (Option ℕ) → Prop
  | init : HeapRun c [] (.strideInit c) []
  | step {ops : List Op} {s : HeapBuild} {picks : List (Option ℕ)} {op : Op}
      (h : HeapRun c ops s picks)
      (hlegal : op.Legal s)
      (hwindow : ∃ b, InWindow b (s.step op).1.procs (s.step op).1.pool.toList) :
      HeapRun c (ops ++ [op]) (s.step op).1 (picks ++ (s.step op).2)

/-! ## Comparisons in a window -/

section Window

variable {c c' : Procs} {b b' : BitVec 32} {l : List ℕ} {p q : ℕ}

/-- In a window the sign of the difference compares the distances from the lower end. -/
theorem sub_toInt_neg_iff (hp : c.dist p b ≤ lab6.big.toNat) (hq : c.dist q b ≤ lab6.big.toNat) :
    (c.stride p - c.stride q).toInt < 0 ↔ c.dist p b < c.dist q b := by
  have hdiff : c.stride p - c.stride q =
      BitVec.ofNat 32 (c.dist p b) - BitVec.ofNat 32 (c.dist q b) := by
    rw [Procs.dist, Procs.dist, BitVec.ofNat_toNat, BitVec.ofNat_toNat, BitVec.setWidth_eq,
      BitVec.setWidth_eq]
    bv_omega
  rw [hdiff, toInt_ofNat_sub lab6.big_lt (by omega) (by omega)]
  omega

theorem InWindow.lt_iff (h : InWindow b c l) (hp : p ∈ l) (hq : q ∈ l) {t : SkewHeap ℕ} :
    (HeapBuild.mk t c).rq.lt p q = true ↔ c.dist p b < c.dist q b := by
  rw [Stride.lt_iff]
  exact sub_toInt_neg_iff (h p hp) (h q hq)

/-- The order of the distances is the same in any other window. -/
theorem InWindow.dist_le (h : InWindow b c l) (h' : InWindow b' c l) (hp : p ∈ l) (hq : q ∈ l)
    (hle : c.dist p b ≤ c.dist q b) : c.dist p b' ≤ c.dist q b' := by
  have hnot := not_lt.mpr hle
  rw [← sub_toInt_neg_iff (h q hq) (h p hp), sub_toInt_neg_iff (h' q hq) (h' p hp)] at hnot
  exact not_lt.mp hnot

theorem dist_congr (h : c'.stride p = c.stride p) : c'.dist p b = c.dist p b := by
  rw [Procs.dist, h, Procs.dist]

/-- Equal distances mean equal strides. -/
theorem stride_eq_of_dist (h : c.dist p b = c.dist q b) : c.stride p = c.stride q := by
  have hsub := BitVec.eq_of_toNat_eq h
  exact (BitVec.sub_left_inj b).mp hsub

/-- The scan finds a process with the smallest distance. -/
theorem scan_min (h : InWindow b c (p :: l)) :
    scan c.stride p l ∈ p :: l ∧ ∀ x ∈ p :: l, c.dist (scan c.stride p l) b ≤ c.dist x b := by
  induction l generalizing p with
  | nil =>
    refine ⟨List.mem_cons_self, fun x hx ↦ ?_⟩
    rw [List.mem_singleton.mp hx]
    exact le_rfl
  | cons q l ih =>
    have hp := h p List.mem_cons_self
    have hq := h q (List.mem_cons_of_mem p List.mem_cons_self)
    have hl : ∀ x ∈ l, c.dist x b ≤ lab6.big.toNat := fun x hx ↦
      h x (List.mem_cons_of_mem p (List.mem_cons_of_mem q hx))
    rw [scan]
    -- inside the window the sign of the difference compares the distances
    by_cases hlt : (c.stride q - c.stride p).toInt < 0
    · rw [if_pos hlt]
      have hkey := (sub_toInt_neg_iff hq hp).mp hlt
      obtain ⟨hmem, hmin⟩ := @ih q (List.forall_mem_cons.mpr ⟨hq, hl⟩)
      refine ⟨List.mem_cons_of_mem p hmem, List.forall_mem_cons.mpr ⟨?_, hmin⟩⟩
      exact (hmin q List.mem_cons_self).trans hkey.le
    · rw [if_neg hlt]
      have hkey := not_lt.mp (mt (sub_toInt_neg_iff hq hp).mpr hlt)
      obtain ⟨hmem, hmin⟩ := @ih p (List.forall_mem_cons.mpr ⟨hp, hl⟩)
      have hfirst := hmin p List.mem_cons_self
      constructor
      · rcases List.mem_cons.mp hmem with heq | hmem
        · rw [heq]
          exact List.mem_cons_self
        · exact List.mem_cons_of_mem p (List.mem_cons_of_mem q hmem)
      · refine List.forall_mem_cons.mpr ⟨hfirst, List.forall_mem_cons.mpr ⟨hfirst.trans hkey, ?_⟩⟩
        exact fun x hx ↦ hmin x (List.mem_cons_of_mem p hx)

end Window

/-! ## Agreement -/

/-- Both builds have the same processes in the queue, each once, and the heap is in order. -/
structure Agree (h : HeapBuild) (l : ListBuild) : Prop where
  procs : l.procs = h.procs
  perm : h.pool.toList.Perm l.runList
  nodup : h.pool.toList.Nodup
  rq : ∀ p ∈ h.pool.toList, h.procs.rq p = true
  ordered : ∃ b, InWindow b h.procs h.pool.toList ∧ h.pool.Ordered fun p ↦ h.procs.dist p b

/-- The builds choose processes with equal strides, and write to the process they choose in the same
way. -/
structure SamePick (h : HeapBuild) (l : ListBuild) : Prop where
  none_iff : h.stridePickNext = none ↔ l.stridePickNext = none
  some : ∀ {p h' q l'}, h.stridePickNext = some (p, h') → l.stridePickNext = some (q, l') →
    h.procs.stride p = l.procs.stride q ∧
      h'.procs.stride p = h.procs.stride p + lab6.pass (h.procs.priority p) ∧
      l'.procs.stride q = l.procs.stride q + lab6.pass (l.procs.priority q)

section Agree

variable {h : HeapBuild} {l : ListBuild} {p : ℕ} {c : Procs}

/-- The heap stays in order in any window of the processes that are left. -/
theorem ordered_of_window {t : SkewHeap ℕ} {b b' : BitVec 32}
    (hordered : t.Ordered fun p ↦ c.dist p b)
    (hwindow : InWindow b c t.toList) (hwindow' : InWindow b' c t.toList) :
    t.Ordered fun p ↦ c.dist p b' :=
  hordered.of_le fun _ hx _ hy hle ↦ hwindow.dist_le hwindow' hx hy hle

theorem Agree.init (c : Procs) : Agree (.strideInit c) (.strideInit c) where
  procs := rfl
  perm := List.Perm.refl _
  nodup := List.nodup_nil
  rq _ hp := absurd hp List.not_mem_nil
  ordered := ⟨0, fun _ hp ↦ absurd hp List.not_mem_nil, trivial⟩

theorem mem_enqueue {x : ℕ} : x ∈ (h.strideEnqueue p).pool.toList ↔ x = p ∨ x ∈ h.pool.toList :=
  mem_insert

/-- `stride_enqueue` of a process that is not queued. -/
theorem Agree.enqueue (hagree : Agree h l) (hp : p ∉ h.pool.toList)
    (hwindow : ∃ b, InWindow b (h.strideEnqueue p).procs (h.strideEnqueue p).pool.toList) :
    ∃ l', l.strideEnqueue p = some l' ∧ Agree (h.strideEnqueue p) l' := by
  have hnot : p ∉ l.runList := fun hcon ↦ hp (hagree.perm.mem_iff.mpr hcon)
  have hperm : (h.strideEnqueue p).pool.toList.Perm (p :: h.pool.toList) := toList_insert _ h.pool p
  refine ⟨⟨l.runList ++ [p], l.procs.enqueued p⟩, if_pos hnot, ?_⟩
  constructor
  · rw [hagree.procs]
    rfl
  · exact (hperm.trans (hagree.perm.cons p)).trans (List.perm_append_singleton p l.runList).symm
  · exact hperm.nodup_iff.mpr (List.nodup_cons.mpr ⟨hp, hagree.nodup⟩)
  · intro x hx
    change Function.update h.procs.rq p true x = true
    rcases mem_enqueue.mp hx with rfl | hx
    · exact Function.update_self x true h.procs.rq
    · have hne : x ≠ p := fun heq ↦ hp (heq ▸ hx)
      rw [Function.update_of_ne hne]
      exact hagree.rq x hx
  · obtain ⟨b', hwindow'⟩ := hwindow
    obtain ⟨b, hb, hordered⟩ := hagree.ordered
    have hold : InWindow b' h.procs h.pool.toList := fun x hx ↦
      hwindow' x (mem_enqueue.mpr (.inr hx))
    have hjoin : h.procs.dist p b' ≤ lab6.big.toNat := hwindow' p (mem_enqueue.mpr (.inl rfl))
    refine ⟨b', hwindow', (ordered_of_window hordered hb hold).insert fun x hx y hy ↦ ?_⟩
    rw [List.mem_singleton.mp hy, Stride.lt_iff]
    exact sub_toInt_neg_iff (hold x hx) hjoin

/-- A process leaves the list. -/
theorem ListBuild.dequeue_run {t : List ℕ} (hperm : (p :: t).Perm l.runList)
    (hrq : l.procs.rq p = true) :
    l.strideDequeue p = some ⟨l.runList.erase p, l.procs.dequeued⟩ ∧
      t.Perm (l.runList.erase p) := by
  have hmem : p ∈ l.runList := hperm.mem_iff.mp List.mem_cons_self
  refine ⟨if_pos ⟨hmem, hrq⟩, ?_⟩
  have herase := hperm.erase p
  rwa [List.erase_cons_head] at herase

/-- `stride_dequeue` of any queued process. -/
theorem Agree.dequeue (hagree : Agree h l) (hp : p ∈ h.pool.toList) :
    ∃ l', l.strideDequeue p = some l' ∧ Agree (h.strideDequeue p) l' := by
  have hperm := toList_remove h.rq.lt hagree.nodup hp
  have hrq : l.procs.rq p = true := by
    rw [hagree.procs]
    exact hagree.rq p hp
  obtain ⟨hrun, hleft⟩ := ListBuild.dequeue_run (hperm.symm.trans hagree.perm) hrq
  have hsub : ∀ x ∈ (h.strideDequeue p).pool.toList, x ∈ h.pool.toList :=
    fun x hx ↦ mem_of_mem_remove hx
  -- no stride has changed, so the old window still serves
  obtain ⟨b, hb, hordered⟩ := hagree.ordered
  refine ⟨_, hrun, ?_⟩
  constructor
  · rw [hagree.procs]
    rfl
  · exact hleft
  · exact (nodup_remove h.rq.lt hagree.nodup hp).1
  · exact fun x hx ↦ hagree.rq x (hsub x hx)
  · refine ⟨b, fun x hx ↦ hb x (hsub x hx), hordered.remove fun x hx y hy ↦ ?_⟩
    exact hb.lt_iff hx hy

/-- Both picks are at the smallest distance. -/
theorem Agree.samePick (hagree : Agree h l) : SamePick h l := by
  obtain ⟨b, hb, hordered⟩ := hagree.ordered
  have hwindow : InWindow b l.procs l.runList := by
    intro x hx
    rw [hagree.procs]
    exact hb x (hagree.perm.mem_iff.mpr hx)
  constructor
  · rw [HeapBuild.stridePickNext, ListBuild.stridePickNext, Option.map_eq_none_iff,
      root_eq_none_iff]
    cases hl : l.runList with
    | nil =>
      refine iff_of_true ?_ rfl
      have hnil := hagree.perm.length_eq
      rw [hl, List.length_nil, List.length_eq_zero_iff] at hnil
      rw [← root_eq_none_iff, Option.eq_none_iff_forall_ne_some]
      intro x hx
      have hmem := mem_of_root hx
      rw [hnil] at hmem
      exact List.not_mem_nil hmem
    | cons p rest =>
      refine iff_of_false (fun hnil ↦ ?_) (Option.some_ne_none _)
      have hmem : p ∈ h.pool.toList :=
        hagree.perm.mem_iff.mpr (by rw [hl]; exact List.mem_cons_self)
      rw [hnil] at hmem
      exact List.not_mem_nil hmem
  · intro p h' q l' hpick hscan
    obtain ⟨root, hroot, heq⟩ := Option.map_eq_some_iff.mp hpick
    cases heq
    rw [ListBuild.stridePickNext] at hscan
    cases hl : l.runList with
    | nil =>
      rw [hl] at hscan
      cases hscan
    | cons x rest =>
      rw [hl] at hscan hwindow
      cases hscan
      obtain ⟨hmem, hmin⟩ := scan_min hwindow
      refine ⟨?_, Function.update_self _ _ _, Function.update_self _ _ _⟩
      rw [← hl] at hmem hmin
      rw [hagree.procs] at hmem hmin ⊢
      apply stride_eq_of_dist (b := b)
      apply le_antisymm
      · exact hordered.root_le hroot (hagree.perm.mem_iff.mpr hmem)
      · exact hmin p (hagree.perm.mem_iff.mp (mem_of_root hroot))

theorem Agree.scan_mem (hagree : Agree h l) {q : ℕ} {l' : ListBuild}
    (hscan : l.stridePickNext = some (q, l')) :
    q ∈ h.pool.toList ∧ l' = ⟨l.runList, l.procs.picked q⟩ := by
  obtain ⟨b, hb, -⟩ := hagree.ordered
  rw [ListBuild.stridePickNext] at hscan
  cases hl : l.runList with
  | nil =>
    rw [hl] at hscan
    cases hscan
  | cons x rest =>
    rw [hl] at hscan
    cases hscan
    have hwindow : InWindow b l.procs (x :: rest) := by
      intro y hy
      rw [hagree.procs]
      exact hb y (hagree.perm.mem_iff.mpr (hl ▸ hy))
    refine ⟨hagree.perm.mem_iff.mpr ?_, rfl⟩
    rw [hl]
    exact (scan_min hwindow).1

/-- With distinct strides `schedule` takes the same process off both queues. The comparison has
changed at the root when it is removed from the heap, and only there. -/
theorem Agree.next (hagree : Agree h l) (hlegal : Op.next.Legal h) :
    ∃ l', l.step .next = some (l', (h.step .next).2) ∧ Agree (h.step .next).1 l' := by
  cases hroot : h.pool.root with
  | none =>
    have hpick : h.stridePickNext = none := by
      rw [HeapBuild.stridePickNext, hroot, Option.map_none]
    rw [HeapBuild.step, hpick, ListBuild.step, hagree.samePick.none_iff.mp hpick]
    exact ⟨l, rfl, hagree⟩
  | some p =>
    have hpick : h.stridePickNext = some (p, ⟨h.pool, h.procs.picked p⟩) := by
      rw [HeapBuild.stridePickNext, hroot, Option.map_some]
    cases hscan : l.stridePickNext with
    | none =>
      rw [hagree.samePick.none_iff.mpr hscan] at hpick
      cases hpick
    | some x =>
      obtain ⟨q, l₁⟩ := x
      obtain ⟨hq, rfl⟩ := hagree.scan_mem hscan
      have hstride := (hagree.samePick.some hpick hscan).1
      rw [hagree.procs] at hstride
      -- both picks have the least stride, and strides are distinct
      obtain rfl := hlegal p (mem_of_root hroot) q hq hstride
      rw [HeapBuild.step, hpick, ListBuild.step, hscan]
      have hperm := toList_remove_root (HeapBuild.mk h.pool (h.procs.picked p)).rq.lt hroot
      have hnodup := hperm.nodup_iff.mp hagree.nodup
      have hrq : (l.procs.picked p).rq p = true := by
        rw [hagree.procs]
        exact hagree.rq p (mem_of_root hroot)
      obtain ⟨hrun, hleft⟩ := @ListBuild.dequeue_run ⟨l.runList, l.procs.picked p⟩ p _
        (hperm.symm.trans hagree.perm) hrq
      have hsub : ∀ x ∈ (HeapBuild.strideDequeue ⟨h.pool, h.procs.picked p⟩ p).pool.toList,
          x ∈ h.pool.toList ∧ x ≠ p := fun x hx ↦
        ⟨hperm.mem_iff.mpr (List.mem_cons_of_mem p hx), fun heq ↦ hnodup.notMem (heq ▸ hx)⟩
      -- only the stride of the one picked changes, and it leaves the heap
      have hsame : ∀ x, x ≠ p → (h.procs.picked p).stride x = h.procs.stride x := fun x hx ↦
        Function.update_of_ne hx _ _
      obtain ⟨b, hb, hordered⟩ := hagree.ordered
      have hdist : ∀ x, x ≠ p → (h.procs.picked p).dist x b = h.procs.dist x b := fun x hx ↦
        dist_congr (hsame x hx)
      refine ⟨_, congrArg (Option.map fun t ↦ (t, [some p])) hrun, ?_⟩
      constructor
      · rw [hagree.procs]
        rfl
      · exact hleft
      · exact hnodup.of_cons
      · exact fun x hx ↦ hagree.rq x (hsub x hx).1
      · refine ⟨b, fun x hx ↦ ?_, ?_⟩
        · change (h.procs.picked p).dist x b ≤ _
          rw [hdist x (hsub x hx).2]
          exact hb x (hsub x hx).1
        · have hrest : (h.pool.remove (HeapBuild.mk h.pool (h.procs.picked p)).rq.lt p).Ordered
              fun x ↦ h.procs.dist x b := by
            refine hordered.remove_root hroot (fun x hx y hy hxp hyp ↦ ?_) hagree.nodup
            rw [Stride.lt_iff]
            change ((h.procs.picked p).stride x - (h.procs.picked p).stride y).toInt < 0 ↔ _
            rw [hsame x hxp, hsame y hyp]
            exact sub_toInt_neg_iff (hb x hx) (hb y hy)
          exact hrest.congr fun x hx ↦ hdist x (hsub x hx).2

/-- The rest of the kernel leaves the queued strides alone. -/
theorem Agree.others (hagree : Agree h l) (hlegal : (Op.others c).Legal h) :
    Agree ⟨h.pool, c⟩ ⟨l.runList, c⟩ where
  procs := rfl
  perm := hagree.perm
  nodup := hagree.nodup
  rq x hx := (hlegal x hx).2.trans (hagree.rq x hx)
  ordered := by
    obtain ⟨b, hb, hordered⟩ := hagree.ordered
    have hdist : ∀ x ∈ h.pool.toList, c.dist x b = h.procs.dist x b := fun x hx ↦
      dist_congr (hlegal x hx).1
    refine ⟨b, fun x hx ↦ ?_, hordered.congr hdist⟩
    rw [hdist x hx]
    exact hb x hx

/-- One call. -/
theorem Agree.step (hagree : Agree h l) {op : Op} (hlegal : op.Legal h)
    (hwindow : ∃ b, InWindow b (h.step op).1.procs (h.step op).1.pool.toList) :
    ∃ l', l.step op = some (l', (h.step op).2) ∧ Agree (h.step op).1 l' := by
  cases op with
  | enqueue p =>
    obtain ⟨l', hrun, hagree'⟩ := hagree.enqueue hlegal hwindow
    exact ⟨l', by rw [ListBuild.step, hrun]; rfl, hagree'⟩
  | dequeue p =>
    obtain ⟨l', hrun, hagree'⟩ := hagree.dequeue hlegal
    exact ⟨l', by rw [ListBuild.step, hrun]; rfl, hagree'⟩
  | next => exact hagree.next hlegal
  | others c => exact ⟨_, rfl, hagree.others hlegal⟩

theorem ListBuild.run_append (ops ops' : List Op) : l.run (ops ++ ops') =
    (l.run ops).bind fun x ↦ (x.1.run ops').map fun y ↦ (y.1, x.2 ++ y.2) := by
  induction ops generalizing l with
  | nil =>
    rw [List.nil_append, ListBuild.run, Option.bind_some]
    simp only [List.nil_append, Option.map_id']
  | cons op ops ih =>
    rw [List.cons_append, ListBuild.run, ListBuild.run]
    cases l.step op with
    | none => rfl
    | some x =>
      rw [Option.bind_some, Option.bind_some, ih]
      cases x.1.run ops with
      | none => rfl
      | some y =>
        simp only [Option.bind_some, Option.map_some, Option.map_map, Function.comp_def,
          List.append_assoc]

/-- Over every run the list build passes its assertions and makes the choices of the heap build; and
whatever is queued in the end, both choose processes with equal strides. -/
theorem builds_agree {ops : List Op} {picks : List (Option ℕ)} (hrun : HeapRun c ops h picks) :
    ∃ l, (ListBuild.strideInit c).run ops = some (l, picks) ∧ l.procs = h.procs ∧
      h.pool.toList.Perm l.runList ∧ SamePick h l := by
  have hagree : ∃ l, (ListBuild.strideInit c).run ops = some (l, picks) ∧ Agree h l := by
    induction hrun with
    | init => exact ⟨_, rfl, .init c⟩
    | @step ops s picks op _ hlegal hwindow ih =>
      obtain ⟨l, hbefore, hagree⟩ := ih
      obtain ⟨l', hstep, hagree'⟩ := hagree.step hlegal hwindow
      refine ⟨l', ?_, hagree'⟩
      rw [ListBuild.run_append, hbefore, Option.bind_some, ListBuild.run, hstep]
      simp only [ListBuild.run, Option.bind_some, Option.map_some, List.append_nil]
  obtain ⟨l, hlist, hagree⟩ := hagree
  exact ⟨l, hlist, hagree.procs, hagree.perm, hagree.samePick⟩

/-- The stride of process 2 is about to wrap. -/
def wrapping : Procs :=
  ⟨fun p ↦ if p = 2 then 0xFFFFFFF0 else 0, fun _ ↦ 10, fun _ ↦ 0, fun _ ↦ false, 0, 5⟩

theorem builds_agree_sample : ∃ (h : HeapBuild) (l : ListBuild),
    (ListBuild.strideInit wrapping).run [.enqueue 1, .enqueue 2, .next, .enqueue 2] =
        some (l, [some 2]) ∧ l.procs = h.procs ∧ h.pool.toList.Perm l.runList ∧ SamePick h l := by
  have h₁ : HeapRun wrapping ([] ++ [.enqueue 1]) _ _ := .step .init (by decide) ⟨0, by decide⟩
  have h₂ : HeapRun wrapping ([.enqueue 1] ++ [.enqueue 2]) _ _ :=
    .step h₁ (by decide) ⟨0xFFFFFFF0, by decide⟩
  have h₃ : HeapRun wrapping ([.enqueue 1, .enqueue 2] ++ [.next]) _ _ :=
    .step h₂ (by decide) ⟨0, by decide⟩
  have h₄ : HeapRun wrapping ([.enqueue 1, .enqueue 2, .next] ++ [.enqueue 2]) _ _ :=
    .step h₃ (by decide) ⟨0, by decide⟩
  obtain ⟨l, hlist, hrest⟩ := builds_agree h₄
  exact ⟨_, l, hlist, hrest⟩

end Agree

end Ucore.StrideBuilds
