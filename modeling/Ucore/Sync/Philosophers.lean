import Ucore.Sync.Sem

/-!
# The philosophers with semaphores

The first half of `kern/sync/check_sync.c`: five philosophers, each a thread, take and put their
forks with a semaphore `mutex` around the array of their states and a semaphore of each philosopher
to wait for its forks. The threads run in any order, one statement or call of `phi_test_sema` after
the other. Neighbours never eat at the same time, and as long as a philosopher has not put its forks
back some philosopher that is on its way can go on (`philosophers_safe`).

## The invariant

`MutexOk` is the usual one of a mutex: its value is one and nobody is in the critical section, or it
is zero and just one thread is. `ForkOk` says, for each philosopher, how its state, its semaphore
and its counter go together; a unit is in the semaphore exactly between the test that grants the
forks and the `down` that takes them. Neighbours are not both in the state `EATING`.

The field `asked` is what rules out a lost wakeup: a philosopher that is hungry tests itself next,
or a neighbour eats, or a thread in its critical section will still test it. A philosopher that puts
its forks back tests both neighbours before it leaves the section, so that nobody waits for a test
that does not come.
-/

namespace Ucore.Philosophers

/-- A philosopher; there are `N`. -/
abbrev Phil := Fin 5

/-- `LEFT`, `(i-1+N)%N`. -/
def left (i : Phil) : Phil := ⟨(i.val + 5 - 1) % 5, Nat.mod_lt _ (by decide)⟩

/-- `RIGHT`, `(i+1)%N`. -/
def right (i : Phil) : Phil := ⟨(i.val + 1) % 5, Nat.mod_lt _ (by decide)⟩

/-- `THINKING`, `HUNGRY` and `EATING`. -/
inductive Phase
  | thinking
  | hungry
  | eating
  deriving DecidableEq, Repr

/-- Where a philosopher is: in front of `phi_take_forks_sema`, of its assignment, its call of
`phi_test_sema`, its `up` and its second `down`; at the table; and in front of the assignment of
`phi_put_forks_sema`, its calls of `phi_test_sema` and its `up`. A philosopher that waits in `down`
is behind it. -/
inductive Pc
  | think
  | takeSet
  | takeTest
  | takeUp
  | takeFork
  | eat
  | putSet
  | putLeft
  | putRight
  | putUp
  deriving DecidableEq, Repr

/-- `state_sema`, the semaphores and the threads. -/
structure State where
  stateSema : Phil → Phase
  mutex : Sem Phil
  s : Phil → Sem Phil
  pc : Phil → Pc

/-- When all threads are started. -/
def State.init : State := ⟨fun _ ↦ .thinking, .init 1, fun _ ↦ .init 0, fun _ ↦ .think⟩

def State.phiTestSema (st : State) (i : Phil) : State :=
  if st.stateSema i = .hungry ∧ st.stateSema (left i) ≠ .eating ∧
      st.stateSema (right i) ≠ .eating then
    { st with
      stateSema := Function.update st.stateSema i .eating
      s := Function.update st.s i (st.s i).up.1 }
  else st

/-- A thread goes on to `pc`. -/
def State.goto (st : State) (i : Phil) (pc : Pc) : State :=
  { st with pc := Function.update st.pc i pc }

/-- A step of a thread: `phi_take_forks_sema`, and then `phi_put_forks_sema`. -/
def State.step (st : State) (i : Phil) : State :=
  match st.pc i with
  | .think => { st with mutex := (st.mutex.down i).1 }.goto i .takeSet
  | .takeSet => { st with stateSema := Function.update st.stateSema i .hungry }.goto i .takeTest
  | .takeTest => (st.phiTestSema i).goto i .takeUp
  | .takeUp => { st with mutex := st.mutex.up.1 }.goto i .takeFork
  | .takeFork => { st with s := Function.update st.s i ((st.s i).down i).1 }.goto i .eat
  | .eat => { st with mutex := (st.mutex.down i).1 }.goto i .putSet
  | .putSet => { st with stateSema := Function.update st.stateSema i .thinking }.goto i .putLeft
  | .putLeft => (st.phiTestSema (left i)).goto i .putRight
  | .putRight => (st.phiTestSema (right i)).goto i .putUp
  | .putUp => { st with mutex := st.mutex.up.1 }.goto i .think

/-- A thread waits in the queue of a semaphore. -/
def State.Blocked (st : State) (i : Phil) : Prop :=
  i ∈ st.mutex.queue ∨ ∃ j, i ∈ (st.s j).queue

/-- The threads in any order. -/
def Step (st st' : State) : Prop := ∃ i, ¬st.Blocked i ∧ st' = st.step i

/-- A philosopher is at the table. -/
def State.Eats (st : State) (i : Phil) : Prop := st.pc i = .eat ∧ ¬st.Blocked i

/-- Neighbours. -/
def Near (i j : Phil) : Prop := j = left i ∨ j = right i

theorem Near.symm : ∀ {i j : Phil}, Near i j → Near j i := by
  unfold Near left right
  decide

theorem Near.ne : ∀ {i j : Phil}, Near i j → i ≠ j := by
  unfold Near left right
  decide

/-! ## The critical section -/

/-- The statements between `down(&mutex)` and `up(&mutex)`. -/
def Pc.Inner : Pc → Prop
  | .think | .takeFork | .eat => False
  | _ => True

/-- The statements behind `down(&mutex)`. -/
def Pc.Entry (pc : Pc) : Prop := pc = .takeSet ∨ pc = .putSet

theorem Pc.Entry.inner {pc : Pc} (h : pc.Entry) : pc.Inner := by
  rcases h with rfl | rfl
  · trivial
  · trivial

/-- A thread is in its critical section. -/
def Inside (mutex : Sem Phil) (pc : Phil → Pc) (i : Phil) : Prop :=
  (pc i).Inner ∧ i ∉ mutex.queue

/-- One thread at most is in its critical section, and none when the mutex is free. -/
structure MutexOk (mutex : Sem Phil) (pc : Phil → Pc) : Prop where
  nodup : mutex.queue.Nodup
  waits : ∀ i ∈ mutex.queue, (pc i).Entry
  units : (mutex.value = 1 ∧ mutex.queue = [] ∧ ∀ i, ¬Inside mutex pc i) ∨
    (mutex.value = 0 ∧ ∃ i, Inside mutex pc i ∧ ∀ j, Inside mutex pc j → j = i)

section Mutex

variable {mutex : Sem Phil} {pc : Phil → Pc} {i : Phil} {p : Pc}

theorem MutexOk.unique (h : MutexOk mutex pc) {j : Phil} (hi : Inside mutex pc i)
    (hj : Inside mutex pc j) : j = i := by
  rcases h.units with ⟨-, -, hnone⟩ | ⟨-, k, -, hk⟩
  · exact absurd hi (hnone i)
  · rw [hk i hi, hk j hj]

/-- What another thread does to its own counter does not matter. -/
theorem inside_update_of_ne {m : Sem Phil} {j : Phil} (hj : j ≠ i) :
    Inside m (Function.update pc i p) j ↔ Inside m pc j := by
  rw [Inside, Function.update_of_ne hj, Inside]

theorem MutexOk.down (h : MutexOk mutex pc) (hi : ¬(pc i).Inner) (hp : p.Entry) :
    MutexOk (mutex.down i).1 (Function.update pc i p) := by
  have hout : i ∉ mutex.queue := fun hmem ↦ hi (h.waits i hmem).inner
  rcases h.units with ⟨hval, hnil, hnone⟩ | ⟨hval, k, hk, huniq⟩
  · have hdown := mutex.down_of_pos (by rw [hval]; decide) i
    rw [hdown]
    refine ⟨h.nodup, fun j hj ↦ ?_, .inr ⟨?_, i, ⟨?_, hout⟩, fun j hj ↦ ?_⟩⟩
    · rw [hnil] at hj
      cases hj
    · change mutex.value - 1 = 0
      rw [hval]
      rfl
    · rw [Function.update_self]
      exact hp.inner
    · by_contra hne
      exact hnone j ((inside_update_of_ne hne).mp hj)
  · have hdown := mutex.down_of_not_pos (by rw [hval]; decide) i
    rw [hdown]
    have hki : k ≠ i := by
      rintro rfl
      exact hi hk.1
    refine ⟨?_, fun j hj ↦ ?_, .inr ⟨hval, k, ⟨?_, ?_⟩, fun j hj ↦ ?_⟩⟩
    · exact List.nodup_append.mpr ⟨h.nodup, List.nodup_singleton i, fun a ha b hb ↦ by
        rw [List.mem_singleton.mp hb]
        rintro rfl
        exact hout ha⟩
    · rcases eq_or_ne j i with rfl | hne
      · rw [Function.update_self]
        exact hp
      · rw [Function.update_of_ne hne]
        rcases List.mem_append.mp hj with hj | hj
        · exact h.waits j hj
        · exact absurd (List.mem_singleton.mp hj) hne
    · rw [Function.update_of_ne hki]
      exact hk.1
    · exact fun hmem ↦ (List.mem_append.mp hmem).elim hk.2 fun hmem ↦
        hki (List.mem_singleton.mp hmem)
    · have hne : j ≠ i := by
        rintro rfl
        exact hj.2 (List.mem_append_right _ List.mem_cons_self)
      refine huniq j ⟨?_, fun hmem ↦ hj.2 (List.mem_append_left _ hmem)⟩
      have hinner := hj.1
      rwa [Function.update_of_ne hne] at hinner

theorem MutexOk.up (h : MutexOk mutex pc) (hi : Inside mutex pc i) (hp : ¬p.Inner) :
    MutexOk mutex.up.1 (Function.update pc i p) := by
  have hself : ∀ {m : Sem Phil}, ¬Inside m (Function.update pc i p) i := fun hin ↦ by
    have hinner := hin.1
    rw [Function.update_self] at hinner
    exact hp hinner
  have hval : mutex.value = 0 := by
    rcases h.units with ⟨-, -, hnone⟩ | ⟨hval, -⟩
    · exact absurd hi (hnone i)
    · exact hval
  cases hq : mutex.queue with
  | nil =>
    rw [mutex.up_of_nil hq]
    refine ⟨h.nodup, fun j hj ↦ ?_, .inl ⟨?_, hq, fun j hj ↦ ?_⟩⟩
    · change j ∈ mutex.queue at hj
      rw [hq] at hj
      cases hj
    · change incInt mutex.value = 1
      rw [hval]
      rfl
    · have hne : j ≠ i := by
        rintro rfl
        exact hself hj
      exact hne (h.unique hi ((inside_update_of_ne hne).mp hj))
  | cons k queue =>
    have hnodup := h.nodup
    rw [hq] at hnodup
    have hki : k ≠ i := by
      rintro rfl
      exact hi.2 (hq ▸ List.mem_cons_self)
    rw [mutex.up_of_cons hq]
    refine ⟨hnodup.of_cons, fun j hj ↦ ?_, .inr ⟨hval, k, ⟨?_, hnodup.notMem⟩, fun j hj ↦ ?_⟩⟩
    · have hmem : j ∈ mutex.queue := hq ▸ List.mem_cons_of_mem k hj
      have hne : j ≠ i := by
        rintro rfl
        exact hi.2 hmem
      rw [Function.update_of_ne hne]
      exact h.waits j hmem
    · rw [Function.update_of_ne hki]
      exact (h.waits k (hq ▸ List.mem_cons_self)).inner
    · have hne : j ≠ i := by
        rintro rfl
        exact hself hj
      by_contra hjk
      refine hne (h.unique hi ⟨((inside_update_of_ne hne).mp hj).1, fun hmem ↦ ?_⟩)
      rw [hq] at hmem
      exact (List.mem_cons.mp hmem).elim hjk hj.2

/-- A thread stays inside or outside. -/
theorem MutexOk.stay (h : MutexOk mutex pc) (hout : i ∉ mutex.queue)
    (hp : p.Inner ↔ (pc i).Inner) : MutexOk mutex (Function.update pc i p) := by
  have hsame : ∀ j, Inside mutex (Function.update pc i p) j ↔ Inside mutex pc j := by
    intro j
    rcases eq_or_ne j i with rfl | hne
    · rw [Inside, Function.update_self, hp, Inside]
    · exact inside_update_of_ne hne
  refine ⟨h.nodup, fun j hj ↦ ?_, ?_⟩
  · have hne : j ≠ i := by
      rintro rfl
      exact hout hj
    rw [Function.update_of_ne hne]
    exact h.waits j hj
  · simpa only [hsame] using h.units

end Mutex

/-! ## The forks -/

/-- How the state of a philosopher, its semaphore and its counter go together. -/
def ForkOk (i : Phil) (sem : Sem Phil) (pc : Pc) : Phase → Prop
  | .thinking => sem = ⟨0, []⟩ ∧
    (pc = .think ∨ pc = .takeSet ∨ pc = .putLeft ∨ pc = .putRight ∨ pc = .putUp)
  | .hungry => (sem = ⟨0, []⟩ ∧ (pc = .takeTest ∨ pc = .takeUp ∨ pc = .takeFork)) ∨
    (sem = ⟨0, [i]⟩ ∧ pc = .eat)
  | .eating => (sem = ⟨1, []⟩ ∧ (pc = .takeUp ∨ pc = .takeFork)) ∨
    (sem = ⟨0, []⟩ ∧ (pc = .eat ∨ pc = .putSet))

theorem ForkOk.thinks {i : Phil} {sem : Sem Phil} {pc : Pc} {ph : Phase} (h : ForkOk i sem pc ph)
    (hpc : pc = .think ∨ pc = .takeSet ∨ pc = .putLeft ∨ pc = .putRight ∨ pc = .putUp) :
    ph = .thinking ∧ sem = ⟨0, []⟩ := by
  cases ph with
  | thinking => exact ⟨rfl, h.1⟩
  | hungry => rcases hpc with rfl | rfl | rfl | rfl | rfl <;> simp [ForkOk] at h
  | eating => rcases hpc with rfl | rfl | rfl | rfl | rfl <;> simp [ForkOk] at h

/-- Thread `i` at `pc` has still to test philosopher `j`. -/
def Tests (pc : Pc) (i j : Phil) : Prop :=
  (pc = .putLeft ∧ Near i j) ∨ (pc = .putRight ∧ j = right i)

/-- The invariant. -/
structure State.Ok (st : State) : Prop where
  mutex : MutexOk st.mutex st.pc
  forks : ∀ j, ForkOk j (st.s j) (st.pc j) (st.stateSema j)
  apart : ∀ j k, Near j k → st.stateSema j = .eating → st.stateSema k ≠ .eating
  /-- Who is hungry tests itself, has a neighbour that eats, or will be tested by one. -/
  asked : ∀ j, st.stateSema j = .hungry → st.pc j = .takeTest ∨
    (∃ k, Near j k ∧ st.stateSema k = .eating) ∨
    ∃ i, Inside st.mutex st.pc i ∧ Tests (st.pc i) i j

section Forks

variable {st : State} {i j t : Phil} {p : Pc}

theorem State.Ok.init : State.init.Ok where
  mutex := ⟨List.nodup_nil, fun _ hi ↦ absurd hi List.not_mem_nil,
    .inl ⟨rfl, rfl, fun _ hi ↦ hi.1⟩⟩
  forks _ := ⟨rfl, .inl rfl⟩
  apart _ _ _ he := by cases he
  asked _ hh := by cases hh

/-- What `phi_test_sema` does. -/
structure Tested (st st' : State) (t : Phil) : Prop where
  mutex : st'.mutex = st.mutex
  pc : st'.pc = st.pc
  forks : ∀ j, ForkOk j (st'.s j) (st'.pc j) (st'.stateSema j)
  apart : ∀ j k, Near j k → st'.stateSema j = .eating → st'.stateSema k ≠ .eating
  eating : ∀ j, st.stateSema j = .eating → st'.stateSema j = .eating
  hungry : ∀ j, st'.stateSema j = .hungry → st.stateSema j = .hungry
  self : st'.stateSema t = .hungry → ∃ k, Near t k ∧ st'.stateSema k = .eating

/-- A philosopher that gets its forks can go on. -/
theorem ForkOk.grant {sem : Sem Phil} (h : ForkOk t sem p .hungry) (hp : p ≠ .takeTest) :
    ForkOk t sem.up.1 p .eating := by
  rcases h with ⟨rfl, hpc⟩ | ⟨rfl, hpc⟩
  · exact .inl ⟨rfl, hpc.resolve_left hp⟩
  · exact .inr ⟨rfl, .inl hpc⟩

theorem tested (hforks : ∀ j, ForkOk j (st.s j) (st.pc j) (st.stateSema j))
    (hapart : ∀ j k, Near j k → st.stateSema j = .eating → st.stateSema k ≠ .eating)
    (ht : st.pc t ≠ .takeTest) : Tested st (st.phiTestSema t) t := by
  rw [State.phiTestSema]
  split_ifs with hcond
  · obtain ⟨hh, hl, hr⟩ := hcond
    have hnear : ∀ k, Near t k → st.stateSema k ≠ .eating := by
      rintro k (rfl | rfl)
      · exact hl
      · exact hr
    refine ⟨rfl, rfl, fun j ↦ ?_, fun j k hjk he ↦ ?_, fun j he ↦ ?_, fun j he ↦ ?_, fun he ↦ ?_⟩
    · rcases eq_or_ne j t with rfl | hne
      · have hfork := hforks j
        rw [hh] at hfork
        dsimp only
        rw [Function.update_self, Function.update_self]
        exact hfork.grant ht
      · dsimp only
        rw [Function.update_of_ne hne, Function.update_of_ne hne]
        exact hforks j
    · dsimp only at he ⊢
      rcases eq_or_ne j t with rfl | hne
      · rw [Function.update_of_ne hjk.ne.symm]
        exact hnear k hjk
      · rw [Function.update_of_ne hne] at he
        rcases eq_or_ne k t with rfl | hnk
        · exact absurd he (hnear j hjk.symm)
        · rw [Function.update_of_ne hnk]
          exact hapart j k hjk he
    · dsimp only
      rcases eq_or_ne j t with rfl | hne
      · rw [Function.update_self]
      · rw [Function.update_of_ne hne]
        exact he
    · dsimp only at he
      rcases eq_or_ne j t with rfl | hne
      · exact hh
      · rwa [Function.update_of_ne hne] at he
    · dsimp only at he
      rw [Function.update_self] at he
      cases he
  · refine ⟨rfl, rfl, hforks, hapart, fun _ he ↦ he, fun _ hh ↦ hh, fun hh ↦ ?_⟩
    by_contra hno
    exact hcond ⟨hh, fun hl ↦ hno ⟨_, .inl rfl, hl⟩, fun hr ↦ hno ⟨_, .inr rfl, hr⟩⟩

theorem forks_goto (h : st.Ok) (hi : ForkOk i (st.s i) p (st.stateSema i)) :
    ∀ j, ForkOk j (st.s j) (Function.update st.pc i p j) (st.stateSema j) :=
  (Function.forall_update_iff st.pc (p := fun j q ↦ ForkOk j (st.s j) q (st.stateSema j))).mpr
    ⟨hi, fun j _ ↦ h.forks j⟩

/-- Nothing changes for those that are hungry, when the states stay and nobody was about to test. -/
theorem State.Ok.asked_stay (h : st.Ok) {m : Sem Phil} (htest : st.pc i ≠ .takeTest)
    (hi : ∀ j, ¬Tests (st.pc i) i j)
    (hin : ∀ k, k ≠ i → Inside st.mutex st.pc k → Inside m (Function.update st.pc i p) k) :
    ∀ j, st.stateSema j = .hungry → Function.update st.pc i p j = .takeTest ∨
      (∃ k, Near j k ∧ st.stateSema k = .eating) ∨
      ∃ k, Inside m (Function.update st.pc i p) k ∧ Tests (Function.update st.pc i p k) k j := by
  intro j hj
  rcases h.asked j hj with hpc | hk | ⟨k, hk, htests⟩
  · refine .inl ?_
    rw [Function.update_of_ne]
    · exact hpc
    · rintro rfl
      exact htest hpc
  · exact .inr (.inl hk)
  · have hne : k ≠ i := by
      rintro rfl
      exact hi j htests
    refine .inr (.inr ⟨k, hin k hne hk, ?_⟩)
    rwa [Function.update_of_ne hne]

/-- Nobody but the thread inside is in front of a test. -/
theorem State.Ok.not_at_test (h : st.Ok) (hin : Inside st.mutex st.pc i) (hp : p ≠ .takeTest) :
    Function.update st.pc i p t ≠ .takeTest := by
  intro htest
  rcases eq_or_ne t i with rfl | hne
  · rw [Function.update_self] at htest
    exact hp htest
  · rw [Function.update_of_ne hne] at htest
    refine hne (h.mutex.unique hin ⟨?_, fun hm ↦ ?_⟩)
    · rw [htest]
      trivial
    · rcases h.mutex.waits t hm with hc | hc
      · rw [htest] at hc
        cases hc
      · rw [htest] at hc
        cases hc

/-- A thread that waits in no queue, at a statement of its critical section, is inside. -/
theorem inside_of_not_blocked (hb : ¬st.Blocked i) (hpc : (st.pc i).Inner) :
    Inside st.mutex st.pc i := ⟨hpc, fun hm ↦ hb (.inl hm)⟩

end Forks

/-! ## Every step -/

section Steps

variable {st st' : State} {i t : Phil} {p : Pc}

theorem mem_down {m : Sem Phil} {k : Phil} (h : k ∈ (m.down i).1.queue) : k ∈ m.queue ∨ k = i := by
  rw [Sem.down] at h
  split_ifs at h
  · exact .inl h
  · exact (List.mem_append.mp h).imp_right List.mem_singleton.mp

theorem Tests.inner {k : Phil} (h : Tests p i k) : p.Inner := by
  rcases h with ⟨rfl, -⟩ | ⟨rfl, -⟩
  · trivial
  · trivial

theorem State.Ok.down (h : st.Ok) (hout : ¬(st.pc i).Inner) (hp : p.Entry)
    (hfork : ForkOk i (st.s i) p (st.stateSema i)) :
    ({ st with mutex := (st.mutex.down i).1 }.goto i p : State).Ok where
  mutex := h.mutex.down hout hp
  forks := forks_goto h hfork
  apart := h.apart
  asked := by
    refine h.asked_stay (fun htest ↦ ?_) (fun j htests ↦ hout htests.inner) fun k hne hk ↦
      ⟨(inside_update_of_ne hne).mpr hk |>.1, fun hmem ↦ (mem_down hmem).elim hk.2 hne⟩
    rw [htest] at hout
    exact hout trivial

theorem State.Ok.up (h : st.Ok) (hin : Inside st.mutex st.pc i) (hp : ¬p.Inner)
    (htest : st.pc i ≠ .takeTest) (hno : ∀ j, ¬Tests (st.pc i) i j)
    (hfork : ForkOk i (st.s i) p (st.stateSema i)) :
    ({ st with mutex := st.mutex.up.1 }.goto i p : State).Ok where
  mutex := h.mutex.up hin hp
  forks := forks_goto h hfork
  apart := h.apart
  asked := h.asked_stay htest hno fun _ hne hk ↦ absurd (h.mutex.unique hin hk) hne

/-- The second `down` of `phi_take_forks_sema`. -/
theorem State.Ok.fork (h : st.Ok) (hb : ¬st.Blocked i) (hpc : st.pc i = .takeFork) :
    ({ st with s := Function.update st.s i ((st.s i).down i).1 }.goto i .eat : State).Ok where
  mutex := h.mutex.stay (fun hm ↦ hb (.inl hm)) (by rw [hpc]; exact Iff.rfl)
  forks j := by
    change ForkOk j (Function.update st.s i ((st.s i).down i).1 j)
      (Function.update st.pc i .eat j) (st.stateSema j)
    rcases eq_or_ne j i with rfl | hne
    · rw [Function.update_self, Function.update_self]
      have hfork := h.forks j
      rw [hpc] at hfork
      cases hst : st.stateSema j with
      | thinking =>
        rw [hst] at hfork
        rcases hfork.2 with hc | hc | hc | hc | hc <;> cases hc
      | hungry =>
        rw [hst] at hfork
        rcases hfork with ⟨hs, -⟩ | ⟨-, hc⟩
        · rw [hs]
          exact .inr ⟨rfl, rfl⟩
        · cases hc
      | eating =>
        rw [hst] at hfork
        rcases hfork with ⟨hs, -⟩ | ⟨-, hc⟩
        · rw [hs]
          exact .inr ⟨rfl, .inl rfl⟩
        · rcases hc with hc | hc <;> cases hc
    · rw [Function.update_of_ne hne, Function.update_of_ne hne]
      exact h.forks j
  apart := h.apart
  asked := by
    refine h.asked_stay (fun htest ↦ ?_) (fun j htests ↦ ?_) fun k hne hk ↦
      (inside_update_of_ne hne).mpr hk
    · rw [hpc] at htest
      cases htest
    · rw [hpc] at htests
      exact htests.inner

/-- `state_sema[i]=HUNGRY`. -/
theorem State.Ok.takeSet (h : st.Ok) (hb : ¬st.Blocked i) (hpc : st.pc i = .takeSet) :
    ({ st with stateSema := Function.update st.stateSema i .hungry }.goto i .takeTest :
      State).Ok := by
  have hin := inside_of_not_blocked hb (by rw [hpc]; trivial)
  have hthink := (h.forks i).thinks (.inr (.inl hpc))
  have hkept : ∀ {k}, st.stateSema k = .eating →
      Function.update st.stateSema i .hungry k = .eating := by
    intro k hk
    rw [Function.update_of_ne]
    · exact hk
    · rintro rfl
      rw [hthink.1] at hk
      cases hk
  have hback : ∀ {k}, Function.update st.stateSema i .hungry k = .eating →
      st.stateSema k = .eating := by
    intro k hk
    rcases eq_or_ne k i with rfl | hne
    · rw [Function.update_self] at hk
      cases hk
    · rwa [Function.update_of_ne hne] at hk
  refine ⟨h.mutex.stay hin.2 (by rw [hpc]; exact Iff.rfl), fun j ↦ ?_, fun j k hjk he hk ↦
    h.apart j k hjk (hback he) (hback hk), fun j hj ↦ ?_⟩
  · change ForkOk j (st.s j) (Function.update st.pc i .takeTest j)
      (Function.update st.stateSema i .hungry j)
    rcases eq_or_ne j i with rfl | hne
    · rw [Function.update_self, Function.update_self]
      exact .inl ⟨hthink.2, .inl rfl⟩
    · rw [Function.update_of_ne hne, Function.update_of_ne hne]
      exact h.forks j
  · change Function.update st.stateSema i .hungry j = .hungry at hj
    rcases eq_or_ne j i with rfl | hne
    · exact .inl (Function.update_self ..)
    · rw [Function.update_of_ne hne] at hj
      rcases h.asked j hj with htest | ⟨k, hk, he⟩ | ⟨k, hk, htests⟩
      · exact .inl ((Function.update_of_ne hne ..).trans htest)
      · exact .inr (.inl ⟨k, hk, hkept he⟩)
      · rw [h.mutex.unique hin hk, hpc] at htests
        rcases htests with ⟨hc, -⟩ | ⟨hc, -⟩ <;> cases hc

/-- `state_sema[i]=THINKING`: the neighbours will be tested. -/
theorem State.Ok.putSet (h : st.Ok) (hb : ¬st.Blocked i) (hpc : st.pc i = .putSet) :
    ({ st with stateSema := Function.update st.stateSema i .thinking }.goto i .putLeft :
      State).Ok := by
  have hin := inside_of_not_blocked hb (by rw [hpc]; trivial)
  -- it was eating, so its own semaphore stands at 0
  have hs : st.s i = ⟨0, []⟩ := by
    have hfork := h.forks i
    rw [hpc] at hfork
    cases hst : st.stateSema i with
    | thinking =>
      rw [hst] at hfork
      exact hfork.1
    | hungry =>
      rw [hst] at hfork
      rcases hfork with ⟨-, hc | hc | hc⟩ | ⟨-, hc⟩ <;> cases hc
    | eating =>
      rw [hst] at hfork
      rcases hfork with ⟨-, hc | hc⟩ | ⟨hs, -⟩
      · cases hc
      · cases hc
      · exact hs
  have hback : ∀ {k} {ph : Phase}, ph ≠ .thinking →
      Function.update st.stateSema i .thinking k = ph → k ≠ i ∧ st.stateSema k = ph := by
    intro k ph hph hk
    have hne : k ≠ i := by
      rintro rfl
      rw [Function.update_self] at hk
      exact hph hk.symm
    rw [Function.update_of_ne hne] at hk
    exact ⟨hne, hk⟩
  have hself : Inside st.mutex (Function.update st.pc i .putLeft) i := by
    refine ⟨?_, hin.2⟩
    rw [Function.update_self]
    trivial
  refine ⟨h.mutex.stay hin.2 (by rw [hpc]; exact Iff.rfl), fun j ↦ ?_, fun j k hjk he hk ↦
    h.apart j k hjk (hback Phase.noConfusion he).2 (hback Phase.noConfusion hk).2, fun j hj ↦ ?_⟩
  · change ForkOk j (st.s j) (Function.update st.pc i .putLeft j)
      (Function.update st.stateSema i .thinking j)
    rcases eq_or_ne j i with rfl | hne
    · rw [Function.update_self, Function.update_self]
      exact ⟨hs, .inr (.inr (.inl rfl))⟩
    · rw [Function.update_of_ne hne, Function.update_of_ne hne]
      exact h.forks j
  · obtain ⟨hne, hj⟩ := hback Phase.noConfusion hj
    rcases h.asked j hj with htest | ⟨k, hk, he⟩ | ⟨k, hk, htests⟩
    · exact .inl ((Function.update_of_ne hne ..).trans htest)
    · rcases eq_or_ne k i with rfl | hki
      · -- the neighbour that was eating is the one that puts its forks back
        refine .inr (.inr ⟨k, hself, .inl ⟨Function.update_self .., hk.symm⟩⟩)
      · exact .inr (.inl ⟨k, hk, (Function.update_of_ne hki ..).trans he⟩)
    · rw [h.mutex.unique hin hk, hpc] at htests
      rcases htests with ⟨hc, -⟩ | ⟨hc, -⟩ <;> cases hc

/-- A call of `phi_test_sema` for `t`. -/
theorem State.Ok.test (h : st.Ok) (hin : Inside st.mutex st.pc i) (hp : p.Inner)
    (hfork : ForkOk i (st.s i) p (st.stateSema i)) (ht : Function.update st.pc i p t ≠ .takeTest)
    (hself : st.pc i = .takeTest → t = i)
    (htests : ∀ j, Tests (st.pc i) i j → j = t ∨ Tests p i j) :
    ((st.phiTestSema t).goto i p).Ok := by
  -- whether the test comes before or after the jump makes no difference
  have hcomm : (st.phiTestSema t).goto i p = (st.goto i p).phiTestSema t := by
    rw [State.phiTestSema, State.phiTestSema]
    by_cases hc : st.stateSema t = .hungry ∧ st.stateSema (left t) ≠ .eating ∧
        st.stateSema (right t) ≠ .eating
    · rw [if_pos hc]
      exact (if_pos hc).symm
    · rw [if_neg hc]
      exact (if_neg hc).symm
  have hdone : Tested (st.goto i p) ((st.goto i p).phiTestSema t) t :=
    tested (forks_goto h hfork) h.apart ht
  have hmutex : MutexOk st.mutex (Function.update st.pc i p) :=
    h.mutex.stay hin.2 (iff_of_true hp hin.1)
  have hinside : Inside st.mutex (Function.update st.pc i p) i := by
    refine ⟨?_, hin.2⟩
    rwa [Function.update_self]
  rw [hcomm]
  set st₁ := (st.goto i p).phiTestSema t with hst₁
  have hm : st₁.mutex = st.mutex := hdone.mutex
  have hpc₁ : st₁.pc = Function.update st.pc i p := hdone.pc
  refine ⟨?_, hdone.forks, hdone.apart, fun j hj ↦ ?_⟩
  · rw [hm, hpc₁]
    exact hmutex
  · rw [hm, hpc₁]
    -- a hungry philosopher other than the tested one is excused as before
    by_cases hjt : j = t
    · obtain ⟨k, hk, he⟩ := hdone.self (hjt ▸ hj)
      exact .inr (.inl ⟨k, hjt ▸ hk, he⟩)
    rcases h.asked j (hdone.hungry j hj) with htest | ⟨k, hk, he⟩ | ⟨k, hk, htests'⟩
    · have hne : j ≠ i := by
        rintro rfl
        exact hjt (hself htest).symm
      exact .inl ((Function.update_of_ne hne ..).trans htest)
    · exact .inr (.inl ⟨k, hk, hdone.eating k he⟩)
    · rw [h.mutex.unique hin hk] at htests'
      refine .inr (.inr ⟨i, hinside, ?_⟩)
      rw [Function.update_self]
      exact (htests j htests').resolve_left hjt

theorem State.Ok.step (h : st.Ok) (hb : ¬st.Blocked i) : (st.step i).Ok := by
  have hfork := h.forks i
  have hinside := inside_of_not_blocked hb
  rw [State.step]
  cases hpc : st.pc i with
  | think =>
    obtain ⟨hph, hs⟩ := hfork.thinks (.inl hpc)
    refine h.down (by rw [hpc]; exact id) (.inl rfl) ?_
    rw [hph]
    exact ⟨hs, .inr (.inl rfl)⟩
  | takeSet => exact h.takeSet hb hpc
  | takeTest =>
    refine h.test (hinside (by rw [hpc]; trivial)) trivial ?_ ?_ (fun _ ↦ rfl) fun j htests ↦ ?_
    · rw [hpc] at hfork
      cases hst : st.stateSema i with
      | thinking => simp [hst, ForkOk] at hfork
      | hungry =>
        rw [hst] at hfork
        rcases hfork with ⟨hs, -⟩ | ⟨-, hc⟩
        · exact .inl ⟨hs, .inr (.inl rfl)⟩
        · cases hc
      | eating => simp [hst, ForkOk] at hfork
    · rw [Function.update_self]
      exact Pc.noConfusion
    · rw [hpc] at htests
      rcases htests with ⟨hc, -⟩ | ⟨hc, -⟩ <;> cases hc
  | takeUp =>
    refine h.up (hinside (by rw [hpc]; trivial)) id (by rw [hpc]; exact Pc.noConfusion)
      (fun j htests ↦ ?_) ?_
    · rw [hpc] at htests
      rcases htests with ⟨hc, -⟩ | ⟨hc, -⟩ <;> cases hc
    · rw [hpc] at hfork
      cases hst : st.stateSema i with
      | thinking => simp [hst, ForkOk] at hfork
      | hungry =>
        rw [hst] at hfork
        rcases hfork with ⟨hs, -⟩ | ⟨-, hc⟩
        · exact .inl ⟨hs, .inr (.inr rfl)⟩
        · cases hc
      | eating =>
        rw [hst] at hfork
        rcases hfork with ⟨hs, -⟩ | ⟨-, hc | hc⟩
        · exact .inl ⟨hs, .inr rfl⟩
        · cases hc
        · cases hc
  | takeFork => exact h.fork hb hpc
  | eat =>
    refine h.down (by rw [hpc]; exact id) (.inr rfl) ?_
    rw [hpc] at hfork
    cases hst : st.stateSema i with
    | thinking => simp [hst, ForkOk] at hfork
    | hungry =>
      rw [hst] at hfork
      rcases hfork with ⟨-, hc | hc | hc⟩ | ⟨hs, -⟩
      · cases hc
      · cases hc
      · cases hc
      -- hungry with no fork: it is blocked in the `down` on its own semaphore
      · exact absurd (.inr ⟨i, by rw [hs]; exact List.mem_cons_self⟩) hb
    | eating =>
      rw [hst] at hfork
      rcases hfork with ⟨-, hc | hc⟩ | ⟨hs, -⟩
      · cases hc
      · cases hc
      · exact .inr ⟨hs, .inr rfl⟩
  | putSet => exact h.putSet hb hpc
  | putLeft =>
    -- the left neighbour is tested now, and the right one still will be
    obtain ⟨hph, hs⟩ := hfork.thinks (.inr (.inr (.inl hpc)))
    have hin := hinside (by rw [hpc]; trivial)
    refine h.test hin trivial ?_ (h.not_at_test hin (p := .putRight) Pc.noConfusion) (fun hc ↦ ?_)
      fun j htests ↦ ?_
    · rw [hph]
      exact ⟨hs, .inr (.inr (.inr (.inl rfl)))⟩
    · rw [hpc] at hc
      cases hc
    · rcases htests with ⟨-, hj | hj⟩ | ⟨hc, -⟩
      · exact .inl hj
      · exact .inr (.inr ⟨rfl, hj⟩)
      · rw [hpc] at hc
        cases hc
  | putRight =>
    obtain ⟨hph, hs⟩ := hfork.thinks (.inr (.inr (.inr (.inl hpc))))
    have hin := hinside (by rw [hpc]; trivial)
    refine h.test hin trivial ?_ (h.not_at_test hin (p := .putUp) Pc.noConfusion) (fun hc ↦ ?_)
      fun j htests ↦ ?_
    · rw [hph]
      exact ⟨hs, .inr (.inr (.inr (.inr rfl)))⟩
    · rw [hpc] at hc
      cases hc
    · rcases htests with ⟨hc, -⟩ | ⟨-, hj⟩
      · rw [hpc] at hc
        cases hc
      · exact .inl hj
  | putUp =>
    obtain ⟨hph, hs⟩ := hfork.thinks (.inr (.inr (.inr (.inr hpc))))
    refine h.up (hinside (by rw [hpc]; trivial)) id (by rw [hpc]; exact Pc.noConfusion)
      (fun j htests ↦ ?_) ?_
    · rw [hpc] at htests
      rcases htests with ⟨hc, -⟩ | ⟨hc, -⟩ <;> cases hc
    · rw [hph]
      exact ⟨hs, .inl rfl⟩

theorem ok_of_run (hrun : Relation.ReflTransGen Step State.init st) : st.Ok := by
  induction hrun with
  | refl => exact .init
  | tail _ hstep ih =>
    obtain ⟨i, hb, rfl⟩ := hstep
    exact ih.step hb

/-! ## Main result -/

/-- Who eats has the state for it. -/
theorem State.Ok.eating (h : st.Ok) (he : st.Eats i) : st.stateSema i = .eating := by
  obtain ⟨hpc, hb⟩ := he
  have hfork := h.forks i
  rw [hpc] at hfork
  cases hst : st.stateSema i with
  | thinking => simp [hst, ForkOk] at hfork
  | hungry =>
    rw [hst] at hfork
    rcases hfork with ⟨-, hc | hc | hc⟩ | ⟨hs, -⟩
    · cases hc
    · cases hc
    · cases hc
    · exact absurd (.inr ⟨i, by rw [hs]; exact List.mem_cons_self⟩) hb
  | eating => rfl

/-- The queue of a philosopher's semaphore holds nobody but that philosopher, when it is hungry. -/
theorem State.Ok.queue (h : st.Ok) {j : Phil} (hi : i ∈ (st.s j).queue) :
    i = j ∧ st.stateSema i = .hungry ∧ st.pc i = .eat := by
  have hfork := h.forks j
  cases hst : st.stateSema j with
  | thinking =>
    rw [hst] at hfork
    rw [hfork.1] at hi
    cases hi
  | hungry =>
    rw [hst] at hfork
    rcases hfork with ⟨hs, -⟩ | ⟨hs, hpc⟩
    · rw [hs] at hi
      cases hi
    · rw [hs] at hi
      obtain rfl := List.mem_singleton.mp hi
      exact ⟨rfl, hst, hpc⟩
  | eating =>
    rw [hst] at hfork
    rcases hfork with ⟨hs, -⟩ | ⟨hs, -⟩
    · rw [hs] at hi
      cases hi
    · rw [hs] at hi
      cases hi

/-- A thread in its critical section waits nowhere. -/
theorem State.Ok.inside_free (h : st.Ok) (hin : Inside st.mutex st.pc i) : ¬st.Blocked i := by
  rintro (hm | ⟨j, hj⟩)
  · exact hin.2 hm
  · have hinner := hin.1
    rw [(h.queue hj).2.2] at hinner
    exact hinner

/-- While a philosopher is on its way, one that is on its way can go on. -/
theorem State.Ok.progress (h : st.Ok) (hi : st.pc i ≠ .think) :
    ∃ j, st.pc j ≠ .think ∧ ¬st.Blocked j := by
  rcases h.mutex.units with ⟨-, hnil, hnone⟩ | ⟨-, k, hk, -⟩
  swap
  · refine ⟨k, fun hc ↦ ?_, h.inside_free hk⟩
    have hinner := hk.1
    rw [hc] at hinner
    exact hinner
  by_cases hb : st.Blocked i
  swap
  · exact ⟨i, hi, hb⟩
  rcases hb with hm | ⟨j, hj⟩
  · rw [hnil] at hm
    cases hm
  obtain ⟨rfl, hhungry, hpc⟩ := h.queue hj
  rcases h.asked i hhungry with htest | ⟨k, -, he⟩ | ⟨k, hk, -⟩
  · rw [hpc] at htest
    cases htest
  · refine ⟨k, fun hc ↦ ?_, ?_⟩
    · have hthink := ((h.forks k).thinks (.inl hc)).1
      rw [he] at hthink
      cases hthink
    · rintro (hm | ⟨j, hj⟩)
      · rw [hnil] at hm
        cases hm
      · have hhungry := (h.queue hj).2.1
        rw [he] at hhungry
        cases hhungry
  · exact absurd hk (hnone k)

end Steps

/-- **The philosophers are safe.** Whatever the order of the steps: one thread at most is in its
critical section; neighbours never eat at the same time; a philosopher that waits for its forks has
a neighbour with the forks, or a thread in its critical section; and while a philosopher is on its
way, some philosopher that is on its way can take a step. -/
theorem philosophers_safe {st : State} (hrun : Relation.ReflTransGen Step State.init st) :
    (∀ i j, Inside st.mutex st.pc i → Inside st.mutex st.pc j → i = j) ∧
    (∀ i j, Near i j → ¬(st.Eats i ∧ st.Eats j)) ∧
    (∀ i, i ∈ (st.s i).queue → (∃ j, Near i j ∧ st.stateSema j = .eating) ∨
      ∃ j, Inside st.mutex st.pc j) ∧
    ∀ i, st.pc i ≠ .think → ∃ j, st.pc j ≠ .think ∧ ¬st.Blocked j := by
  have h := ok_of_run hrun
  refine ⟨fun i j hi hj ↦ h.mutex.unique hj hi, fun i j hij he ↦ ?_, fun i hi ↦ ?_,
    fun i hi ↦ h.progress hi⟩
  · exact h.apart i j hij (h.eating he.1) (h.eating he.2)
  · obtain ⟨-, hhungry, hpc⟩ := h.queue hi
    rcases h.asked i hhungry with htest | hk | ⟨k, hk, -⟩
    · rw [hpc] at htest
      cases htest
    · exact .inl hk
    · exact .inr ⟨k, hk⟩

instance (st : State) (i : Phil) : Decidable (st.Blocked i) :=
  inferInstanceAs (Decidable (_ ∨ _))

/-- The steps of the threads in a list, as long as none of them has to wait. -/
def State.follow : List Phil → State → Option State
  | [], st => some st
  | i :: l, st => if st.Blocked i then none else (st.step i).follow l

theorem run_of_follow {l : List Phil} {st st' : State} (h : st.follow l = some st') :
    Relation.ReflTransGen Step st st' := by
  induction l generalizing st with
  | nil => exact Option.some.inj h ▸ .refl
  | cons i l ih =>
    rw [State.follow] at h
    split_ifs at h with hb
    exact .head ⟨i, hb, rfl⟩ (ih h)

/-- Philosopher 1 waits for its forks while its neighbour 0 eats. -/
theorem philosophers_safe_sample : ∃ st, Relation.ReflTransGen Step State.init st ∧
    st.pc 0 = .eat ∧ st.Blocked 1 ∧ ∃ j, st.pc j ≠ .think ∧ ¬st.Blocked j := by
  have hfollow : (State.init.follow [0, 0, 0, 0, 0, 1, 1, 1, 1, 1]).map
      (fun st ↦ (st.pc 0, st.pc 1, (st.s 1).queue)) = some (.eat, .eat, [1]) := by decide +kernel
  obtain ⟨st, hst, hfacts⟩ := Option.map_eq_some_iff.mp hfollow
  obtain ⟨hpc, hrest⟩ := Prod.mk.inj hfacts
  obtain ⟨hpc₁, hqueue⟩ := Prod.mk.inj hrest
  have hrun := run_of_follow hst
  refine ⟨st, hrun, hpc, .inr ⟨1, ?_⟩, (philosophers_safe hrun).2.2.2 1 fun hc ↦ ?_⟩
  · rw [hqueue]
    exact List.mem_cons_self
  · rw [hpc₁] at hc
    cases hc

end Ucore.Philosophers
