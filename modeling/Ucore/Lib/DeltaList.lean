import Mathlib.Tactic
import Mathlib.Data.List.Basic

/-!
# Delta-encoded queues

A queue of keys with deadlines in which every entry stores the difference to the deadline before it.
`absolute` decodes one. Inserting walks the queue and subtracts, deleting adds to the successor, and
the passing of one unit of time is a decrement of the first entry.

`Encodes` relates such a queue to a list of independent countdowns in the order they were started:
for every deadline, both have the same keys in the same order. The operations keep the relation.
-/

namespace DeltaList

variable {α : Type}

/-- The deadlines a queue stands for, `b` being the time now. -/
def absolute (b : ℕ) : List (α × ℕ) → List (α × ℕ)
  | [] => []
  | (a, d) :: l => (a, b + d) :: absolute (b + d) l

/-- Insert `a` with deadline `t`, behind the entries that have the same deadline. -/
def insert (a : α) (t : ℕ) : List (α × ℕ) → List (α × ℕ)
  | [] => [(a, t)]
  | (n, d) :: l => if t < d then (a, t) :: (n, d - t) :: l else (n, d) :: insert a (t - d) l

/-- Give the deadline of a deleted entry back to its successor. -/
def push (d : ℕ) : List (α × ℕ) → List (α × ℕ)
  | [] => []
  | (n, e) :: l => (n, e + d) :: l

/-- Delete the entry with key `k`. -/
def erase [DecidableEq α] (k : α) : List (α × ℕ) → List (α × ℕ)
  | [] => []
  | (n, d) :: l => if n = k then push d l else (n, d) :: erase k l

/-- One unit of time passes for the first entry. -/
def decrement : List (α × ℕ) → List (α × ℕ)
  | [] => []
  | (n, d) :: l => (n, d - 1) :: l

/-! ## Decoding -/

section Absolute

variable {a : α} {b t : ℕ} {l : List (α × ℕ)}

theorem keys_absolute (b : ℕ) (l : List (α × ℕ)) :
    (absolute b l).map Prod.fst = l.map Prod.fst := by
  induction l generalizing b with
  | nil => rfl
  | cons e l ih => simp only [absolute, List.map_cons, ih]

theorem le_of_mem_absolute {e : α × ℕ} (h : e ∈ absolute b l) : b ≤ e.2 := by
  induction l generalizing b with
  | nil => cases h
  | cons f l ih =>
    rcases List.mem_cons.mp h with rfl | h
    · exact Nat.le_add_right ..
    · exact (Nat.le_add_right ..).trans (ih h)

theorem absolute_push (b d : ℕ) (l : List (α × ℕ)) :
    absolute b (push d l) = absolute (b + d) l := by
  cases l with
  | nil => rfl
  | cons e l =>
    have hb : b + (e.2 + d) = b + d + e.2 := by omega
    simp only [push, absolute, hb]

theorem absolute_erase [DecidableEq α] (k : α) (hnd : (l.map Prod.fst).Nodup) :
    absolute b (erase k l) = (absolute b l).filter fun e ↦ e.1 ≠ k := by
  induction l generalizing b with
  | nil => rfl
  | cons e l ih =>
    rw [List.map_cons, List.nodup_cons] at hnd
    rw [erase, absolute]
    by_cases he : e.1 = k
    · have hrest : ∀ f ∈ absolute (b + e.2) l, decide (f.1 ≠ k) = true := by
        intro f hf
        have hmem : f.1 ∈ l.map Prod.fst := by
          rw [← keys_absolute (b + e.2) l]
          exact List.mem_map_of_mem hf
        exact decide_eq_true fun hfk ↦ hnd.1 (he.trans hfk.symm ▸ hmem)
      rw [if_pos he, absolute_push, List.filter_cons_of_neg (by simpa using he),
        List.filter_eq_self.mpr hrest]
    · rw [if_neg he, absolute, ih hnd.2, List.filter_cons_of_pos (by simpa using he)]

/-- Inserting keeps the order and puts the new entry behind those with the same deadline. -/
theorem filter_insert (d : ℕ) : (absolute b (insert a t l)).filter (fun e ↦ e.2 = d)
    = (absolute b l).filter (fun e ↦ e.2 = d) ++ if b + t = d then [(a, b + t)] else [] := by
  induction l generalizing b t with
  | nil => by_cases hd : b + t = d <;> simp [insert, absolute, hd]
  | cons e l ih =>
    rw [insert]
    by_cases ht : t < e.2
    · -- everything from here on is due later than the new entry
      have hsucc : b + t + (e.2 - t) = b + e.2 := by omega
      have hcons : absolute b ((a, t) :: (e.1, e.2 - t) :: l) =
          (a, b + t) :: absolute b (e :: l) := by
        simp only [absolute, hsucc]
      rw [if_pos ht, hcons]
      by_cases hd : b + t = d
      · have hnone : (absolute b (e :: l)).filter (fun f ↦ f.2 = d) = [] := by
          rw [List.filter_eq_nil_iff]
          intro f hf
          rw [absolute, List.mem_cons] at hf
          have hle : b + e.2 ≤ f.2 := by
            rcases hf with rfl | hf
            · exact le_rfl
            · exact le_of_mem_absolute hf
          simp only [decide_eq_true_eq]
          omega
        rw [List.filter_cons_of_pos (by simpa using hd), hnone, if_pos hd, List.nil_append]
      · rw [List.filter_cons_of_neg (by simpa using hd), if_neg hd, List.append_nil]
    · have hsum : b + e.2 + (t - e.2) = b + t := by omega
      rw [if_neg ht, absolute, absolute]
      by_cases hd : b + e.2 = d
      · rw [List.filter_cons_of_pos (by simpa using hd), ih, hsum,
          List.filter_cons_of_pos (by simpa using hd), List.cons_append]
      · rw [List.filter_cons_of_neg (by simpa using hd), ih, hsum,
          List.filter_cons_of_neg (by simpa using hd)]

theorem keys_insert : ((insert a t l).map Prod.fst).Perm (a :: l.map Prod.fst) := by
  induction l generalizing t with
  | nil => exact List.Perm.refl _
  | cons e l ih =>
    rw [insert]
    by_cases ht : t < e.2
    · rw [if_pos ht]
      exact List.Perm.refl _
    · rw [if_neg ht, List.map_cons, List.map_cons]
      exact (List.Perm.cons _ ih).trans (List.Perm.swap ..)

/-- After a decrement of the first entry every deadline is one closer. -/
theorem absolute_decrement {e : α × ℕ} (he : e.2 ≠ 0) :
    absolute b (e :: l) = (absolute b (decrement (e :: l))).map fun f ↦ (f.1, f.2 + 1) := by
  have hshift : ∀ (b : ℕ) (l : List (α × ℕ)),
      absolute (b + 1) l = (absolute b l).map fun f ↦ (f.1, f.2 + 1) := by
    intro b l
    induction l generalizing b with
    | nil => rfl
    | cons f l ih =>
      have hb : b + 1 + f.2 = b + f.2 + 1 := by omega
      simp only [absolute, hb, ih, List.map_cons]
  have hone : b + e.2 = b + (e.2 - 1) + 1 := by omega
  simp only [decrement, absolute, hone, hshift, List.map_cons]

end Absolute

/-! ## Countdowns -/

/-- The queue stands for these countdowns, which are listed in the order they were started. -/
structure Encodes (l : List (α × ℕ)) (c : List (α × ℕ)) : Prop where
  nodup : (l.map Prod.fst).Nodup
  pos : ∀ e ∈ c, e.2 ≠ 0
  same : ∀ d, (absolute 0 l).filter (fun e ↦ e.2 = d) = c.filter fun e ↦ e.2 = d

section Encodes

variable {l c : List (α × ℕ)}

theorem Encodes.mem_iff (h : Encodes l c) {e : α × ℕ} : e ∈ absolute 0 l ↔ e ∈ c := by
  have hd := congrArg (e ∈ ·) (h.same e.2)
  simpa using hd

theorem Encodes.keys (h : Encodes l c) (a : α) : a ∈ l.map Prod.fst ↔ a ∈ c.map Prod.fst := by
  rw [← keys_absolute 0 l, List.mem_map, List.mem_map]
  constructor
  · rintro ⟨e, he, rfl⟩
    exact ⟨e, h.mem_iff.mp he, rfl⟩
  · rintro ⟨e, he, rfl⟩
    exact ⟨e, h.mem_iff.mpr he, rfl⟩

theorem encodes_nil : Encodes ([] : List (α × ℕ)) [] :=
  ⟨List.nodup_nil, fun _ he ↦ absurd he List.not_mem_nil, fun _ ↦ rfl⟩

/-- Starting a countdown. -/
theorem Encodes.insert (h : Encodes l c) {a : α} {t : ℕ} (ha : a ∉ c.map Prod.fst) (ht : t ≠ 0) :
    Encodes (DeltaList.insert a t l) (c ++ [(a, t)]) where
  nodup := by
    rw [keys_insert.nodup_iff, List.nodup_cons]
    exact ⟨fun hmem ↦ ha ((h.keys a).mp hmem), h.nodup⟩
  pos e he := by
    rcases List.mem_append.mp he with he | he
    · exact h.pos e he
    · rw [List.mem_singleton.mp he]
      exact ht
  same d := by
    rw [filter_insert, h.same, List.filter_append, Nat.zero_add]
    by_cases hd : t = d <;> simp [hd]

/-- Stopping a countdown leaves the others alone. -/
theorem Encodes.erase [DecidableEq α] (h : Encodes l c) (k : α) :
    Encodes (DeltaList.erase k l) (c.filter fun e ↦ e.1 ≠ k) where
  nodup := by
    rw [← keys_absolute 0, absolute_erase k h.nodup]
    refine List.Nodup.sublist (List.Sublist.map _ List.filter_sublist) ?_
    rw [keys_absolute]
    exact h.nodup
  pos e he := h.pos e (List.mem_of_mem_filter he)
  same d := by
    rw [absolute_erase k h.nodup, List.filter_comm, h.same, List.filter_comm]

/-- The first entry of a queue of running countdowns is not due yet. -/
theorem Encodes.head_ne_zero {e : α × ℕ} (h : Encodes (e :: l) c) : e.2 ≠ 0 := by
  have hmem : (e.1, 0 + e.2) ∈ absolute 0 (e :: l) := List.mem_cons_self
  have hne := h.pos _ (h.mem_iff.mp hmem)
  rwa [Nat.zero_add] at hne

end Encodes

/-! ## The passing of time -/

/-- The countdowns that run out in the next unit of time, and those that do not. -/
def expiring (c : List (α × ℕ)) : List (α × ℕ) := c.filter fun e ↦ e.2 = 1

/-- The countdowns that are left after a unit of time. -/
def remaining (c : List (α × ℕ)) : List (α × ℕ) :=
  (c.filter fun e ↦ e.2 ≠ 1).map fun e ↦ (e.1, e.2 - 1)

theorem expiring_cons (e : α × ℕ) (c : List (α × ℕ)) :
    expiring (e :: c) = if e.2 = 1 then e :: expiring c else expiring c := by
  simp only [expiring, List.filter_cons, decide_eq_true_eq]

theorem remaining_cons (e : α × ℕ) (c : List (α × ℕ)) :
    remaining (e :: c) = if e.2 = 1 then remaining c else (e.1, e.2 - 1) :: remaining c := by
  by_cases h : e.2 = 1 <;> simp [remaining, h]

/-- The entries at the front that are due. -/
def due (l : List (α × ℕ)) : List (α × ℕ) := l.takeWhile fun e ↦ e.2 = 0

/-- What is behind them. -/
def later (l : List (α × ℕ)) : List (α × ℕ) := l.dropWhile fun e ↦ e.2 = 0

section Time

variable {l c : List (α × ℕ)}

/-- The entries with deadline zero are at the front. -/
theorem filter_absolute_zero (l : List (α × ℕ)) :
    (absolute 0 l).filter (fun e ↦ e.2 = 0) = due l := by
  induction l with
  | nil => rfl
  | cons e l ih =>
    rw [absolute, due, List.takeWhile_cons]
    by_cases he : e.2 = 0
    · rw [List.filter_cons_of_pos (by simpa using he), he, decide_eq_true rfl, if_pos rfl, ih]
      exact congrArg (· :: due l) (Prod.ext rfl he.symm)
    · rw [List.filter_cons_of_neg (by simpa using he), decide_eq_false he,
        if_neg Bool.false_ne_true, List.filter_eq_nil_iff]
      intro f hf
      have hle := le_of_mem_absolute hf
      simp only [decide_eq_true_eq]
      omega

/-- Dropping them leaves the other deadlines as they were. -/
theorem absolute_later (l : List (α × ℕ)) :
    absolute 0 (later l) = (absolute 0 l).filter fun e ↦ e.2 ≠ 0 := by
  induction l with
  | nil => rfl
  | cons e l ih =>
    rw [later, List.dropWhile_cons, absolute]
    by_cases he : e.2 = 0
    · rw [decide_eq_true he, if_pos rfl, List.filter_cons_of_neg (by simpa using he), he]
      exact ih
    · rw [decide_eq_false he, if_neg Bool.false_ne_true, absolute]
      symm
      rw [List.filter_eq_self]
      intro f hf
      have hle : 0 + e.2 ≤ f.2 := by
        rcases List.mem_cons.mp hf with rfl | hf
        · exact le_rfl
        · exact le_of_mem_absolute hf
      simp only [decide_eq_true_eq]
      omega

/-- After a unit of time the entries at the front are the countdowns that ran out, in the order they
were started, and the rest encodes the countdowns that are left. -/
theorem Encodes.tick {e : α × ℕ} (h : Encodes (e :: l) c) :
    (due (decrement (e :: l))).map Prod.fst = (expiring c).map Prod.fst ∧
      Encodes (later (decrement (e :: l))) (remaining c) := by
  have habs := absolute_decrement (b := 0) (l := l) h.head_ne_zero
  set D := absolute 0 (decrement (e :: l)) with hD
  have hfilter : ∀ d, c.filter (fun f ↦ f.2 = d + 1)
      = (D.filter fun f ↦ f.2 = d).map fun f ↦ (f.1, f.2 + 1) := by
    intro d
    rw [← h.same, habs, List.filter_map]
    simp [Function.comp_def]
  refine ⟨?_, ?_, ?_, ?_⟩
  · rw [← filter_absolute_zero, ← hD, expiring, hfilter 0, List.map_map]
    rfl
  · rw [← keys_absolute 0, absolute_later, ← hD]
    refine List.Nodup.sublist (List.Sublist.map _ List.filter_sublist) ?_
    rw [hD, keys_absolute]
    exact h.nodup
  · intro f hf
    obtain ⟨g, hg, rfl⟩ := List.mem_map.mp hf
    have hpos := h.pos g (List.mem_of_mem_filter hg)
    have hne : g.2 ≠ 1 := by simpa using List.of_mem_filter hg
    change g.2 - 1 ≠ 0
    omega
  · intro d
    rw [absolute_later, ← hD, List.filter_filter, remaining, List.filter_map, List.filter_filter]
    by_cases hd : d = 0
    · have hleft : D.filter (fun f ↦ decide (f.2 = d) && decide (f.2 ≠ 0)) = [] := by
        rw [List.filter_eq_nil_iff]
        intro f _
        simp [hd]
      rw [hleft, eq_comm, List.map_eq_nil_iff, List.filter_eq_nil_iff]
      intro f hf
      have hpos := h.pos f hf
      simp only [Function.comp_def, Bool.and_eq_true, decide_eq_true_eq]
      omega
    · have hleft : D.filter (fun f ↦ decide (f.2 = d) && decide (f.2 ≠ 0))
          = D.filter fun f ↦ f.2 = d := by
        refine List.filter_congr fun f _ ↦ ?_
        by_cases hf : f.2 = d <;> simp [hf, hd]
      have hright :
          c.filter (fun f ↦ ((fun e : α × ℕ ↦ decide (e.2 = d)) ∘ fun e ↦ (e.1, e.2 - 1)) f &&
          decide (f.2 ≠ 1)) = c.filter fun f ↦ f.2 = d + 1 := by
        refine List.filter_congr fun f hf ↦ ?_
        have hpos := h.pos f hf
        rw [Bool.eq_iff_iff]
        simp only [Function.comp_def, Bool.and_eq_true, decide_eq_true_eq]
        omega
      rw [hleft, hright, hfilter d, List.map_map]
      simp [Function.comp_def]

end Time

end DeltaList
