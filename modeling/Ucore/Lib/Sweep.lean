import Mathlib.Tactic

/-!
# Sweeping a set until a sweep meets nothing but its own

A set is swept by a list of areas: each of them is taken away from what is left, until an area lies
inside what is left, which is the last one to be taken away. What is left at the end is empty
exactly when there is such an area and the first of them completes a cover of the set.
-/

namespace Sweep

variable {α : Type*}

/-- One area: whether the sweep goes on, and what is left. -/
def step (st : Prop × Set α) (area : Set α) : Prop × Set α :=
  (st.1 ∧ ¬(area.Nonempty ∧ area ⊆ st.2), {x | x ∈ st.2 ∧ ¬(st.1 ∧ x ∈ area)})

/-- An area that lies inside what is left of `T` after the areas before it. -/
def Closes (T : Set α) (before : List (Set α)) (area : Set α) : Prop :=
  area.Nonempty ∧ area ⊆ T ∧ ∀ b ∈ before, ∀ x ∈ area, x ∉ b

/-- Some area closes the sweep, and up to an area that does the areas cover the set. -/
def Clears (T : Set α) (areas : List (Set α)) : Prop :=
  (∃ before area behind, areas = before ++ area :: behind ∧ Closes T before area) ∧
    ∀ before area behind, areas = before ++ area :: behind → Closes T before area →
      ∀ x ∈ T, ∃ b ∈ before ++ [area], x ∈ b

variable {T : Set α} {area : Set α} {areas : List (Set α)}

/-- Once the sweep is over nothing changes. -/
theorem foldl_step_of_over (T : Set α) (areas : List (Set α)) :
    areas.foldl step (False, T) = (False, T) := by
  induction areas with
  | nil => rfl
  | cons area areas ih =>
    have hstep : step (False, T) area = (False, T) := by
      simp [step]
    rw [List.foldl_cons, hstep, ih]

/-- The sweep goes on with what is left when the first area does not close it. -/
theorem clears_cons (h : ¬(area.Nonempty ∧ area ⊆ T)) :
    Clears T (area :: areas) ↔ Clears (T \ area) areas := by
  have hcloses : ∀ before a, Closes T (area :: before) a ↔ Closes (T \ area) before a := by
    intro before a
    have hsub : a ⊆ T \ area ↔ a ⊆ T ∧ ∀ x ∈ a, x ∉ area :=
      ⟨fun h ↦ ⟨fun x hx ↦ (h hx).1, fun x hx ↦ (h hx).2⟩, fun h x hx ↦ ⟨h.1 hx, h.2 x hx⟩⟩
    rw [Closes, Closes, hsub, List.forall_mem_cons, and_assoc]
  have hcover : ∀ before a, (∀ x ∈ T, ∃ b ∈ area :: before ++ [a], x ∈ b) ↔
      ∀ x ∈ T \ area, ∃ b ∈ before ++ [a], x ∈ b := by
    intro before a
    simp only [List.cons_append, List.mem_cons, exists_eq_or_imp, Set.mem_sdiff, and_imp]
    exact forall₂_congr fun x _ ↦ ⟨fun hx hnot ↦ hx.resolve_left hnot, fun hx ↦ by
      by_cases harea : x ∈ area
      · exact .inl harea
      · exact .inr (hx harea)⟩
  have hfirst : ∀ before a behind, area :: areas = before ++ a :: behind → Closes T before a →
      ∃ before', before = area :: before' ∧ areas = before' ++ a :: behind := by
    intro before a behind heq hclose
    rcases List.cons_eq_append_iff.mp heq with ⟨rfl, hcons⟩ | ⟨before', rfl, hrest⟩
    · obtain ⟨rfl, -⟩ := List.cons.inj hcons
      exact absurd ⟨hclose.1, hclose.2.1⟩ h
    · exact ⟨before', rfl, hrest⟩
  constructor
  · rintro ⟨⟨before, a, behind, heq, hclose⟩, hall⟩
    obtain ⟨before', rfl, hrest⟩ := hfirst before a behind heq hclose
    refine ⟨⟨before', a, behind, hrest, (hcloses before' a).mp hclose⟩, ?_⟩
    intro before a behind heq hclose
    refine (hcover before a).mp (hall (area :: before) a behind ?_ ((hcloses before a).mpr hclose))
    rw [heq, List.cons_append]
  · rintro ⟨⟨before, a, behind, heq, hclose⟩, hall⟩
    refine ⟨⟨area :: before, a, behind, ?_, (hcloses before a).mpr hclose⟩, ?_⟩
    · rw [heq, List.cons_append]
    · intro before a behind heq hclose
      obtain ⟨before', rfl, hrest⟩ := hfirst before a behind heq hclose
      exact (hcover before' a).mpr (hall before' a behind hrest ((hcloses before' a).mp hclose))

/-- When the sweep is over and nothing is left. -/
theorem foldl_step_eq_empty_iff :
    (¬(areas.foldl step (True, T)).1 ∧ (areas.foldl step (True, T)).2 = ∅) ↔ Clears T areas := by
  induction areas generalizing T with
  | nil =>
    refine iff_of_false (fun h ↦ h.1 trivial) ?_
    rintro ⟨⟨before, area, behind, heq, -⟩, -⟩
    exact absurd heq (by simp)
  | cons area areas ih =>
    by_cases h : area.Nonempty ∧ area ⊆ T
    · have hstep : step (True, T) area = (False, T \ area) := by
        simp only [step, h, true_and, not_true_eq_false]
        rfl
      rw [List.foldl_cons, hstep, foldl_step_of_over]
      simp only [not_false_eq_true, true_and, Set.sdiff_eq_empty]
      constructor
      · intro hsub
        refine ⟨⟨[], area, areas, rfl, h.1, h.2, fun b hb ↦ absurd hb List.not_mem_nil⟩, ?_⟩
        intro before a behind heq _ x hx
        rcases List.cons_eq_append_iff.mp heq with ⟨rfl, hcons⟩ | ⟨before', rfl, -⟩
        · obtain ⟨rfl, -⟩ := List.cons.inj hcons
          exact ⟨_, List.mem_cons_self, hsub hx⟩
        · exact ⟨area, List.mem_cons_self, hsub hx⟩
      · intro hclears x hx
        obtain ⟨b, hb, hxb⟩ := hclears.2 [] area areas rfl
          ⟨h.1, h.2, fun b hb ↦ absurd hb List.not_mem_nil⟩ x hx
        rw [List.nil_append, List.mem_singleton] at hb
        exact hb ▸ hxb
    · have hstep : step (True, T) area = (True, T \ area) := by
        simp only [step, h, true_and, not_false_eq_true]
        rfl
      rw [List.foldl_cons, hstep, ih, clears_cons h]

end Sweep
