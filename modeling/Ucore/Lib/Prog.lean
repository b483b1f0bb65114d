import Mathlib.Tactic

/-!
# Routines that return, fail or halt

A routine of a systems program runs on a machine state and ends in one of three ways: it returns
a value, it returns an error code, or an assertion inside it stops the machine. In the first two
cases the state it leaves is part of the result — an error does not undo what was done before it —
and in the third there is no state left to speak of.

`Prog ε σ` is that monad, with error codes in `ε` and states in `σ`. Two readings of a routine are
used throughout: the exact one, an equation `m.run s = .ok a s'`, which composes by rewriting, and
`(m.run s).Sat Q E`, which says what holds when it returns and when it fails.
-/

/-- The way a routine ends. -/
inductive Outcome (ε σ α : Type)
  /-- It returned a value. -/
  | ok (value : α) (state : σ)
  /-- It returned an error code; the state is the one it had reached. -/
  | error (err : ε) (state : σ)
  /-- An assertion failed. -/
  | panic

/-- A routine with error codes in `ε` on states in `σ`. -/
structure Prog (ε σ α : Type) where
  /-- Run the routine on a state. -/
  run : σ → Outcome ε σ α

theorem Except.ok_bind {ε α β : Type} (a : α) (f : α → Except ε β) :
    (Except.ok a >>= f) = f a := rfl

namespace Outcome

variable {ε σ α : Type}

/-- The state left behind, when there is one. -/
def state? : Outcome ε σ α → Option σ
  | ok _ s => some s
  | error _ s => some s
  | panic => none

theorem ok_ne_panic {a : α} {s : σ} : (ok a s : Outcome ε σ α) ≠ panic := by
  rintro ⟨⟩

theorem error_ne_panic {e : ε} {s : σ} : (error e s : Outcome ε σ α) ≠ panic := by
  rintro ⟨⟩

/-- A value is returned in a state that satisfies `Q`, or an error in a state that satisfies `E`; a
halt satisfies everything. -/
def Sat (o : Outcome ε σ α) (Q : α → σ → Prop) (E : ε → σ → Prop) : Prop :=
  match o with
  | ok a s => Q a s
  | error e s => E e s
  | panic => True

/-- As `Sat`, and a halt means `P`. -/
def Ends (o : Outcome ε σ α) (Q : α → σ → Prop) (E : ε → σ → Prop) (P : Prop) : Prop :=
  match o with
  | ok a s => Q a s
  | error e s => E e s
  | panic => P

/-- Two ends that are alike: both return, with values and states related by `Q`, or both fail with
the same code, in states related by `E`, or both halt. -/
def Like {σ' α' : Type} (o : Outcome ε σ α) (o' : Outcome ε σ' α') (Q : α → σ → α' → σ' → Prop)
    (E : σ → σ' → Prop) : Prop :=
  match o, o' with
  | ok a s, ok b t => Q a s b t
  | error e s, error e' t => e = e' ∧ E s t
  | panic, panic => True
  | _, _ => False

/-- A routine that can neither fail nor halt returns. -/
theorem Ends.exists_ok {o : Outcome ε σ α} {Q : α → σ → Prop}
    (h : o.Ends Q (fun _ _ ↦ False) False) : ∃ a s, o = ok a s ∧ Q a s := by
  cases o with
  | ok a s => exact ⟨a, s, rfl, h⟩
  | error e s => exact h.elim
  | panic => exact h.elim

@[simp] theorem state?_ok (a : α) (s : σ) : (ok a s : Outcome ε σ α).state? = some s := rfl

@[simp] theorem state?_error (e : ε) (s : σ) : (error e s : Outcome ε σ α).state? = some s := rfl

@[simp] theorem state?_panic : (panic : Outcome ε σ α).state? = none := rfl

section Sat

variable {Q Q' : α → σ → Prop} {E E' : ε → σ → Prop}

@[simp] theorem sat_ok {a : α} {s : σ} : (ok a s : Outcome ε σ α).Sat Q E ↔ Q a s := Iff.rfl

@[simp] theorem sat_error {e : ε} {s : σ} : (error e s : Outcome ε σ α).Sat Q E ↔ E e s := Iff.rfl

@[simp] theorem sat_panic : (panic : Outcome ε σ α).Sat Q E := trivial

theorem Ends.imp {o : Outcome ε σ α} {P : Prop} (h : o.Ends Q E P) (hQ : ∀ a s, Q a s → Q' a s)
    (hE : ∀ e s, E e s → E' e s) : o.Ends Q' E' P := by
  cases o with
  | ok a s => exact hQ a s h
  | error e s => exact hE e s h
  | panic => exact h

theorem Sat.imp {o : Outcome ε σ α} (h : o.Sat Q E) (hQ : ∀ a s, Q a s → Q' a s)
    (hE : ∀ e s, E e s → E' e s) : o.Sat Q' E' := by
  cases o with
  | ok a s => exact hQ a s h
  | error e s => exact hE e s h
  | panic => trivial

/-- What holds of the state in either case holds of the state that is left. -/
theorem Sat.state {o : Outcome ε σ α} {I : σ → Prop} (h : o.Sat (fun _ ↦ I) fun _ ↦ I) {s : σ}
    (hs : o.state? = some s) : I s := by
  cases o with
  | ok a t => exact Option.some.inj hs ▸ h
  | error e t => exact Option.some.inj hs ▸ h
  | panic => cases hs

end Sat

end Outcome

namespace Prog

variable {ε σ τ α β : Type}

instance : Monad (Prog ε σ) where
  pure a := ⟨fun s ↦ .ok a s⟩
  bind m f := ⟨fun s ↦
    match m.run s with
    | .ok a s' => (f a).run s'
    | .error e s' => .error e s'
    | .panic => .panic⟩

/-- Return an error code. -/
def fail (e : ε) : Prog ε σ α := ⟨fun s ↦ .error e s⟩

/-- Stop the machine. -/
def halt : Prog ε σ α := ⟨fun _ ↦ .panic⟩

/-- Stop the machine unless `p` holds. -/
def assert (p : Prop) [Decidable p] : Prog ε σ Unit := ⟨fun s ↦ if p then .ok () s else .panic⟩

/-- Look at the state. -/
def get : Prog ε σ σ := ⟨fun s ↦ .ok s s⟩

/-- Change the state. -/
def modify (f : σ → σ) : Prog ε σ Unit := ⟨fun s ↦ .ok () (f s)⟩

/-- Run `m` and hand its error code, if any, to the caller as a value. -/
def attempt (m : Prog ε σ α) : Prog ε σ (Except ε α) := ⟨fun s ↦
  match m.run s with
  | .ok a s' => .ok (.ok a) s'
  | .error e s' => .ok (.error e) s'
  | .panic => .panic⟩

/-- Run `m`; on an error run `cleanup` and return that same error. -/
def onError (m : Prog ε σ α) (cleanup : Prog ε σ Unit) : Prog ε σ α := ⟨fun s ↦
  match m.run s with
  | .ok a s' => .ok a s'
  | .error e s' => (cleanup >>= fun _ ↦ fail e).run s'
  | .panic => .panic⟩

/-- Run a routine on a component of the state. -/
def zoom (get : σ → τ) (set : τ → σ → σ) (m : Prog ε τ α) : Prog ε σ α := ⟨fun s ↦
  match m.run (get s) with
  | .ok a t => .ok a (set t s)
  | .error e t => .error e (set t s)
  | .panic => .panic⟩

/-! ## Evaluation -/

@[simp] theorem run_pure (a : α) (s : σ) : (pure a : Prog ε σ α).run s = .ok a s := rfl

@[simp] theorem run_fail (e : ε) (s : σ) : (fail e : Prog ε σ α).run s = .error e s := rfl

@[simp] theorem run_halt (s : σ) : (halt : Prog ε σ α).run s = .panic := rfl

@[simp] theorem run_get (s : σ) : (get : Prog ε σ σ).run s = .ok s s := rfl

@[simp] theorem run_modify (f : σ → σ) (s : σ) :
    (modify f : Prog ε σ Unit).run s = .ok () (f s) := rfl

theorem run_assert {p : Prop} [Decidable p] (h : p) (s : σ) :
    (assert p : Prog ε σ Unit).run s = .ok () s := if_pos h

theorem run_assert_neg {p : Prop} [Decidable p] (h : ¬p) (s : σ) :
    (assert p : Prog ε σ Unit).run s = .panic := if_neg h

theorem run_bind (m : Prog ε σ α) (f : α → Prog ε σ β) (s : σ) :
    (m >>= f).run s = match m.run s with
      | .ok a s' => (f a).run s'
      | .error e s' => .error e s'
      | .panic => .panic := rfl

theorem bind_of_ok {m : Prog ε σ α} {s s' : σ} {a : α} (h : m.run s = .ok a s')
    (f : α → Prog ε σ β) : (m >>= f).run s = (f a).run s' := by
  rw [run_bind, h]

theorem bind_of_error {m : Prog ε σ α} {s s' : σ} {e : ε} (h : m.run s = .error e s')
    (f : α → Prog ε σ β) : (m >>= f).run s = .error e s' := by
  rw [run_bind, h]

theorem bind_of_panic {m : Prog ε σ α} {s : σ} (h : m.run s = .panic) (f : α → Prog ε σ β) :
    (m >>= f).run s = .panic := by
  rw [run_bind, h]

/-- From a run of two routines in a row that returns, a run of each. -/
theorem exists_of_bind_ok {m : Prog ε σ α} {f : α → Prog ε σ β} {s u : σ} {b : β}
    (h : (m >>= f).run s = .ok b u) : ∃ a t, m.run s = .ok a t ∧ (f a).run t = .ok b u := by
  cases hm : m.run s with
  | ok a t =>
    rw [bind_of_ok hm] at h
    exact ⟨a, t, rfl, h⟩
  | error e t =>
    rw [bind_of_error hm] at h
    cases h
  | panic =>
    rw [bind_of_panic hm] at h
    cases h

@[simp] theorem pure_bind_run (a : α) (f : α → Prog ε σ β) (s : σ) :
    ((pure a : Prog ε σ α) >>= f).run s = (f a).run s := rfl

@[simp] theorem fail_bind_run (e : ε) (f : α → Prog ε σ β) (s : σ) :
    ((fail e : Prog ε σ α) >>= f).run s = .error e s := rfl

@[simp] theorem halt_bind_run (f : α → Prog ε σ β) (s : σ) :
    ((halt : Prog ε σ α) >>= f).run s = .panic := rfl

@[simp] theorem get_bind_run (f : σ → Prog ε σ β) (s : σ) :
    ((get : Prog ε σ σ) >>= f).run s = (f s).run s := rfl

@[simp] theorem modify_bind_run (g : σ → σ) (f : Unit → Prog ε σ β) (s : σ) :
    ((modify g : Prog ε σ Unit) >>= f).run s = (f ()).run (g s) := rfl

theorem assert_bind_run {p : Prop} [Decidable p] (h : p) (f : Unit → Prog ε σ β) (s : σ) :
    ((assert p : Prog ε σ Unit) >>= f).run s = (f ()).run s :=
  bind_of_ok (run_assert h s) f

theorem assert_bind_run_neg {p : Prop} [Decidable p] (h : ¬p) (f : Unit → Prog ε σ β) (s : σ) :
    ((assert p : Prog ε σ Unit) >>= f).run s = .panic :=
  bind_of_panic (run_assert_neg h s) f

theorem run_attempt (m : Prog ε σ α) (s : σ) :
    m.attempt.run s = match m.run s with
      | .ok a s' => .ok (.ok a) s'
      | .error e s' => .ok (.error e) s'
      | .panic => .panic := rfl

theorem attempt_of_ok {m : Prog ε σ α} {s s' : σ} {a : α} (h : m.run s = .ok a s') :
    m.attempt.run s = .ok (.ok a) s' := by
  rw [run_attempt, h]

theorem attempt_of_error {m : Prog ε σ α} {s s' : σ} {e : ε} (h : m.run s = .error e s') :
    m.attempt.run s = .ok (.error e) s' := by
  rw [run_attempt, h]

theorem attempt_of_panic {m : Prog ε σ α} {s : σ} (h : m.run s = .panic) :
    m.attempt.run s = .panic := by
  rw [run_attempt, h]

theorem run_onError (m : Prog ε σ α) (cleanup : Prog ε σ Unit) (s : σ) :
    (m.onError cleanup).run s = match m.run s with
      | .ok a s' => .ok a s'
      | .error e s' => (cleanup >>= fun _ ↦ fail e).run s'
      | .panic => .panic := rfl

theorem onError_of_ok {m : Prog ε σ α} {s s' : σ} {a : α} (h : m.run s = .ok a s')
    (cleanup : Prog ε σ Unit) : (m.onError cleanup).run s = .ok a s' := by
  rw [run_onError, h]

theorem onError_of_error {m : Prog ε σ α} {s s' : σ} {e : ε} (h : m.run s = .error e s')
    (cleanup : Prog ε σ Unit) :
    (m.onError cleanup).run s = (cleanup >>= fun _ ↦ fail e).run s' := by
  rw [run_onError, h]

theorem onError_of_panic {m : Prog ε σ α} {s : σ} (h : m.run s = .panic)
    (cleanup : Prog ε σ Unit) : (m.onError cleanup).run s = .panic := by
  rw [run_onError, h]

theorem run_zoom (get : σ → τ) (set : τ → σ → σ) (m : Prog ε τ α) (s : σ) :
    (m.zoom get set).run s = match m.run (get s) with
      | .ok a t => .ok a (set t s)
      | .error e t => .error e (set t s)
      | .panic => .panic := rfl

theorem zoom_of_ok {get : σ → τ} {set : τ → σ → σ} {m : Prog ε τ α} {s : σ} {t : τ} {a : α}
    (h : m.run (get s) = .ok a t) : (m.zoom get set).run s = .ok a (set t s) := by
  rw [run_zoom, h]

theorem zoom_of_error {get : σ → τ} {set : τ → σ → σ} {m : Prog ε τ α} {s : σ} {t : τ} {e : ε}
    (h : m.run (get s) = .error e t) : (m.zoom get set).run s = .error e (set t s) := by
  rw [run_zoom, h]

theorem zoom_of_panic {get : σ → τ} {set : τ → σ → σ} {m : Prog ε τ α} {s : σ}
    (h : m.run (get s) = .panic) : (m.zoom get set).run s = .panic := by
  rw [run_zoom, h]

/-- A routine on a part of the state, and then `g`: where `g` goes on as `f` does on that part, the
whole is a routine on the part. -/
theorem zoom_bind_eq {get : σ → τ} {set : τ → σ → σ} (hget : ∀ t s, get (set t s) = t)
    (hset : ∀ t t' s, set t' (set t s) = set t' s) {m : Prog ε τ α} {f : α → Prog ε τ β}
    {g : α → Prog ε σ β} {s : σ}
    (h : ∀ a t, m.run (get s) = .ok a t →
      (g a).run (set t s) = ((f a).zoom get set).run (set t s)) :
    (m.zoom get set >>= g).run s = ((m >>= f).zoom get set).run s := by
  rw [run_bind, run_zoom, run_zoom, run_bind]
  cases hm : m.run (get s) with
  | ok a t =>
    refine (h a t hm).trans ?_
    rw [run_zoom, hget]
    dsimp only
    cases (f a).run t with
    | ok b u => exact congrArg _ (hset t u s)
    | error e u => exact congrArg _ (hset t u s)
    | panic => rfl
  | error e t => rfl
  | panic => rfl

/-- An assertion in front of such a routine. -/
theorem assert_zoom_bind_eq {get : σ → τ} {set : τ → σ → σ} {p : Prop} [Decidable p]
    {f : Unit → Prog ε τ β} {g : Unit → Prog ε σ β} {s : σ}
    (h : p → (g ()).run s = ((f ()).zoom get set).run s) :
    (assert p >>= g).run s = ((assert p >>= f).zoom get set).run s := by
  by_cases hp : p
  · rw [assert_bind_run hp, h hp, run_zoom, run_zoom, assert_bind_run hp]
  · rw [assert_bind_run_neg hp, run_zoom, assert_bind_run_neg hp]

/-! ## Reasoning about how a routine ends -/

section Sat

variable {Q : β → σ → Prop} {E : ε → σ → Prop}

theorem sat_bind {m : Prog ε σ α} {f : α → Prog ε σ β} {s : σ} {R : α → σ → Prop}
    (hm : (m.run s).Sat R E) (hf : ∀ a t, R a t → ((f a).run t).Sat Q E) :
    ((m >>= f).run s).Sat Q E := by
  rw [run_bind]
  cases hr : m.run s with
  | ok a t =>
    rw [hr] at hm
    exact hf a t hm
  | error e t =>
    rw [hr] at hm
    exact hm
  | panic => trivial

theorem ends_bind {m : Prog ε σ α} {f : α → Prog ε σ β} {s : σ} {R : α → σ → Prop} {P : Prop}
    (hm : (m.run s).Ends R E P) (hf : ∀ a t, R a t → ((f a).run t).Ends Q E P) :
    ((m >>= f).run s).Ends Q E P := by
  rw [run_bind]
  cases hr : m.run s with
  | ok a t =>
    rw [hr] at hm
    exact hf a t hm
  | error e t =>
    rw [hr] at hm
    exact hm
  | panic =>
    rw [hr] at hm
    exact hm

/-- After an error the clean-up has run, and the error is still there. -/
theorem sat_onError {m : Prog ε σ β} {cleanup : Prog ε σ Unit} {s : σ} {E' : ε → σ → Prop}
    (hm : (m.run s).Sat Q E')
    (hc : ∀ e t, E' e t → (cleanup.run t).Sat (fun _ u ↦ E e u) E) :
    ((m.onError cleanup).run s).Sat Q E := by
  rw [run_onError]
  cases hr : m.run s with
  | ok a t =>
    rw [hr] at hm
    exact hm
  | error e t =>
    rw [hr] at hm
    exact sat_bind (hc e t hm) fun _ _ hu ↦ hu
  | panic => trivial

/-- After an assertion the asserted holds. -/
theorem sat_assert_bind {p : Prop} [Decidable p] {f : Unit → Prog ε σ β} {s : σ}
    (hf : p → ((f ()).run s).Sat Q E) : ((assert p >>= f).run s).Sat Q E := by
  by_cases hp : p
  · rw [assert_bind_run hp]
    exact hf hp
  · rw [assert_bind_run_neg hp]
    trivial

end Sat

/-! ### Two routines that end alike -/

section Like

variable {σ' α' β' : Type} {Q : α → σ → α' → σ' → Prop} {E : σ → σ' → Prop}

/-- Routines that end alike, and behind them routines that do. -/
theorem like_bind {R : β → σ → β' → σ' → Prop} {m : Prog ε σ α} {n : Prog ε σ' α'}
    {f : α → Prog ε σ β} {g : α' → Prog ε σ' β'} {s : σ} {t : σ'}
    (h : (m.run s).Like (n.run t) Q E)
    (hf : ∀ a u b v, Q a u b v → ((f a).run u).Like ((g b).run v) R E) :
    ((m >>= f).run s).Like ((n >>= g).run t) R E := by
  rw [run_bind, run_bind]
  match hm : m.run s, hn : n.run t with
  | .ok a u, .ok b v =>
    rw [hm, hn] at h
    exact hf a u b v h
  | .error e u, .error e' v =>
    rw [hm, hn] at h
    exact h
  | .panic, .panic => trivial
  | .ok _ _, .error _ _ | .ok _ _, .panic | .error _ _, .ok _ _ | .error _ _, .panic
  | .panic, .ok _ _ | .panic, .error _ _ =>
    rw [hm, hn] at h
    exact h.elim

/-- An assertion in each of them. -/
theorem like_assert_bind {p q : Prop} [Decidable p] [Decidable q] (hpq : p ↔ q)
    {f : Unit → Prog ε σ α} {g : Unit → Prog ε σ' α'} {s : σ} {t : σ'}
    (h : p → ((f ()).run s).Like ((g ()).run t) Q E) :
    ((assert p >>= f).run s).Like ((assert q >>= g).run t) Q E := by
  by_cases hp : p
  · rw [assert_bind_run hp, assert_bind_run (hpq.mp hp)]
    exact h hp
  · rw [assert_bind_run_neg hp, assert_bind_run_neg fun hq ↦ hp (hpq.mpr hq)]
    trivial

/-- A clean-up that returns changes nothing of this, when the states behind an error do not
matter. -/
theorem like_onError {o : Outcome ε σ α} {m : Prog ε σ' α'} {cleanup : Prog ε σ' Unit} {t : σ'}
    (h : o.Like (m.run t) Q fun _ _ ↦ True) (hc : ∀ u, ∃ v, cleanup.run u = .ok () v) :
    o.Like ((m.onError cleanup).run t) Q fun _ _ ↦ True := by
  rw [run_onError]
  match o, hm : m.run t with
  | .ok a u, .ok b v =>
    rw [hm] at h
    exact h
  | .error e u, .error e' v =>
    rw [hm] at h
    obtain ⟨w, hw⟩ := hc v
    dsimp only
    rw [bind_of_ok hw]
    exact h
  | .panic, .panic => trivial
  | .ok _ _, .error _ _ | .ok _ _, .panic | .error _ _, .ok _ _ | .error _ _, .panic
  | .panic, .ok _ _ | .panic, .error _ _ =>
    rw [hm] at h
    exact h.elim

end Like

/-! ## What a routine does from any state -/

section Moves

variable {R : σ → σ → Prop}

/-- From every state, the routine leaves a state that is related to it. -/
def Moves (R : σ → σ → Prop) (m : Prog ε σ α) : Prop :=
  ∀ s, (m.run s).Sat (fun _ t ↦ R s t) fun _ t ↦ R s t

theorem Moves.modify {f : σ → σ} (h : ∀ s, R s (f s)) : Moves R (modify f : Prog ε σ Unit) := h

theorem Moves.halt : Moves R (halt : Prog ε σ α) := fun _ ↦ trivial

theorem Moves.pure [Std.Refl R] (a : α) : Moves R (pure a : Prog ε σ α) := fun s ↦ Std.Refl.refl s

theorem Moves.fail [Std.Refl R] (e : ε) : Moves R (fail e : Prog ε σ α) := fun s ↦ Std.Refl.refl s

theorem Moves.get [Std.Refl R] : Moves R (get : Prog ε σ σ) := fun s ↦ Std.Refl.refl s

theorem Moves.assert [Std.Refl R] (p : Prop) [Decidable p] :
    Moves R (assert p : Prog ε σ Unit) := by
  intro s
  by_cases hp : p
  · rw [run_assert hp]
    exact Std.Refl.refl s
  · rw [run_assert_neg hp]
    trivial

theorem Moves.bind [IsTrans σ R] {m : Prog ε σ α} {f : α → Prog ε σ β} (hm : Moves R m)
    (hf : ∀ a, Moves R (f a)) : Moves R (m >>= f) := by
  intro s
  refine sat_bind (hm s) fun a t ht ↦ ?_
  exact (hf a t).imp (fun _ _ hu ↦ IsTrans.trans _ _ _ ht hu) fun _ _ hu ↦ IsTrans.trans _ _ _ ht hu

theorem Moves.ite {c : Prop} [Decidable c] {m n : Prog ε σ α} (hm : c → Moves R m)
    (hn : ¬c → Moves R n) : Moves R (if c then m else n) := by
  by_cases hc : c
  · rw [if_pos hc]
    exact hm hc
  · rw [if_neg hc]
    exact hn hc

theorem Moves.attempt {m : Prog ε σ α} (hm : Moves R m) : Moves R m.attempt := by
  intro s
  have h := hm s
  rw [run_attempt]
  cases hr : m.run s with
  | ok a t =>
    rw [hr] at h
    exact h
  | error e t =>
    rw [hr] at h
    exact h
  | panic => trivial

theorem Moves.onError [IsTrans σ R] {m : Prog ε σ α} {cleanup : Prog ε σ Unit} (hm : Moves R m)
    (hc : Moves R cleanup) : Moves R (m.onError cleanup) := by
  intro s
  refine sat_onError (hm s) fun e t ht ↦ ?_
  exact (hc t).imp (fun _ _ hu ↦ IsTrans.trans _ _ _ ht hu) fun _ _ hu ↦ IsTrans.trans _ _ _ ht hu

theorem Moves.zoom {get : σ → τ} {set : τ → σ → σ} (h : ∀ t s, R s (set t s)) (m : Prog ε τ α) :
    Moves R (m.zoom get set) := by
  intro s
  rw [run_zoom]
  cases m.run (get s) with
  | ok a t => exact h t s
  | error e t => exact h t s
  | panic => trivial

/-- Two states look the same through `v`. -/
def Same (v : σ → τ) (s t : σ) : Prop := v t = v s

instance {v : σ → τ} : Std.Refl (Same v) := ⟨fun _ ↦ rfl⟩

instance {v : σ → τ} : IsTrans σ (Same v) := ⟨fun _ _ _ h h' ↦ Eq.trans h' h⟩

end Moves

end Prog
