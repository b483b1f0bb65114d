import Mathlib.Tactic

/-!
# Semaphores

The value and the wait queue of `semaphore_t`, and what `__up`, `__down` and `try_down` of
`kern/sync/sem.c` do to them. A queue is the list of the processes whose `wait_t` is on it. Who is
woken is part of the result; waking and sleeping are up to the caller.
-/

namespace Ucore

/-- `semaphore_t`, with processes in `P`. -/
structure Sem (P : Type) where
  value : ℤ
  queue : List P
  deriving DecidableEq, Repr

/-- The largest `int`. -/
def intMax : ℤ := 2147483647

/-- `x ++` on an `int`, which wraps around. -/
def incInt (x : ℤ) : ℤ := if x = intMax then -intMax - 1 else x + 1

theorem incInt_of_lt {x : ℤ} (h : x < intMax) : incInt x = x + 1 := if_neg h.ne

namespace Sem

variable {P : Type}

/-- `sem_init`. -/
def init (value : ℤ) : Sem P := ⟨value, []⟩

/-- `__up`: the new semaphore, and the process that is woken. -/
def up (sem : Sem P) : Sem P × Option P :=
  match sem.queue with
  | [] => ({ sem with value := incInt sem.value }, none)
  | p :: queue => ({ sem with queue := queue }, some p)

/-- `__down` by process `p` up to its call of `schedule`: the new semaphore, and whether `p` got the
unit at once. -/
def down (sem : Sem P) (p : P) : Sem P × Bool :=
  if 0 < sem.value then ({ sem with value := sem.value - 1 }, true)
  else ({ sem with queue := sem.queue ++ [p] }, false)

def tryDown (sem : Sem P) : Sem P × Bool :=
  if 0 < sem.value then ({ sem with value := sem.value - 1 }, true) else (sem, false)

variable {sem : Sem P} {p : P} {queue : List P}

theorem up_of_nil (h : sem.queue = []) :
    sem.up = ({ sem with value := incInt sem.value }, none) := by
  rw [up, h]

theorem up_of_cons (h : sem.queue = p :: queue) :
    sem.up = ({ sem with queue := queue }, some p) := by
  rw [up, h]

theorem down_of_pos (h : 0 < sem.value) (p : P) :
    sem.down p = ({ sem with value := sem.value - 1 }, true) := if_pos h

theorem down_of_not_pos (h : ¬0 < sem.value) (p : P) :
    sem.down p = ({ sem with queue := sem.queue ++ [p] }, false) := if_neg h

end Sem

end Ucore
