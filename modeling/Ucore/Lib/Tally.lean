import Mathlib.Algebra.BigOperators.Group.List.Basic
import Mathlib.Tactic

/-!
# Counting extents

How many extents `(start, size)` of a list contain a number. Splitting and joining extents does not
change the count, nor does the order of a list, and extents are disjoint where no count is above
one.
-/

namespace Tally

/-- Whether a number lies in an extent, as a number. -/
def inside (e : ℕ × ℕ) (x : ℕ) : ℕ := if e.1 ≤ x ∧ x < e.1 + e.2 then 1 else 0

/-- How many extents of a list contain a number. -/
def tally (es : List (ℕ × ℕ)) (x : ℕ) : ℕ := (es.map fun e ↦ inside e x).sum

variable {e : ℕ × ℕ} {es es' : List (ℕ × ℕ)} {x : ℕ}

@[simp] theorem tally_nil (x : ℕ) : tally [] x = 0 := rfl

@[simp] theorem tally_cons (e : ℕ × ℕ) (es : List (ℕ × ℕ)) (x : ℕ) :
    tally (e :: es) x = inside e x + tally es x := List.sum_cons

@[simp] theorem tally_append (es es' : List (ℕ × ℕ)) (x : ℕ) :
    tally (es ++ es') x = tally es x + tally es' x := by
  rw [tally, List.map_append, List.sum_append]
  rfl

theorem tally_perm (h : es.Perm es') (x : ℕ) : tally es x = tally es' x := (h.map _).sum_eq

theorem inside_of_mem (h : e.1 ≤ x ∧ x < e.1 + e.2) : inside e x = 1 := if_pos h

theorem inside_start (h : 1 ≤ e.2) : inside e e.1 = 1 := inside_of_mem ⟨le_rfl, by omega⟩

theorem mem_of_inside (h : 1 ≤ inside e x) : e.1 ≤ x ∧ x < e.1 + e.2 := by
  by_contra hout
  rw [inside, if_neg hout] at h
  omega

/-- An extent is cut in two. -/
theorem inside_add (a m n x : ℕ) : inside (a, m + n) x = inside (a, m) x + inside (a + m, n) x := by
  unfold inside
  split_ifs <;> omega

theorem inside_le_tally (h : e ∈ es) (x : ℕ) : inside e x ≤ tally es x :=
  List.single_le_sum (fun _ _ ↦ Nat.zero_le _) _ (List.mem_map_of_mem h)

/-- Two extents that stand at different places of a list are counted separately. -/
theorem tally_of_perm {rest : List (ℕ × ℕ)} (h : es.Perm (e :: rest)) (x : ℕ) :
    tally es x = inside e x + tally rest x := (tally_perm h x).trans (tally_cons e rest x)

theorem exists_of_tally_pos (h : 1 ≤ tally es x) : ∃ e ∈ es, e.1 ≤ x ∧ x < e.1 + e.2 := by
  induction es with
  | nil => rw [tally_nil] at h; omega
  | cons e es ih =>
    rw [tally_cons] at h
    by_cases he : 1 ≤ inside e x
    · exact ⟨e, List.mem_cons_self, mem_of_inside he⟩
    · obtain ⟨e', he', hx⟩ := ih (by omega)
      exact ⟨e', List.mem_cons_of_mem _ he', hx⟩

/-- An extent that meets no extent of a list. -/
theorem tally_eq_zero (h : ∀ e ∈ es, x < e.1 ∨ e.1 + e.2 ≤ x) : tally es x = 0 := by
  by_contra hpos
  obtain ⟨e, he, hx⟩ := exists_of_tally_pos (Nat.one_le_iff_ne_zero.mpr hpos)
  have := h e he
  omega

end Tally
