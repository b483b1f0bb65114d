import Mathlib.Tactic

/-!
# Doubly linked lists that end

The links of a list are two maps on its members, to the next member and to the one before. Unlike
a ring such a list has ends: the last member has no next one, and what the first member has before
it is a parameter, so that a list whose head was just taken away can be described as well.

A member is taken out by linking its neighbours to each other, and a new one is put in front.
-/

variable {α : Type}

/-- The links along a list, with `v` before its first member. -/
def Siblings (next prev : α → Option α) : Option α → List α → Prop
  | _, [] => True
  | v, x :: l => prev x = v ∧ next x = l.head? ∧ Siblings next prev (some x) l

namespace Siblings

variable {next prev next' prev' : α → Option α} {v : Option α} {l : List α} {x z : α}

theorem nil : Siblings next prev v [] := trivial

/-- The members are all that counts. -/
theorem congr (h : Siblings next prev v l) (hnext : ∀ x ∈ l, next' x = next x)
    (hprev : ∀ x ∈ l, prev' x = prev x) : Siblings next' prev' v l := by
  induction l generalizing v with
  | nil => exact nil
  | cons x l ih =>
    obtain ⟨hv, hx, hl⟩ := h
    refine ⟨(hprev x List.mem_cons_self).trans hv, (hnext x List.mem_cons_self).trans hx, ?_⟩
    exact ih hl (fun y hy ↦ hnext y (List.mem_cons_of_mem x hy)) fun y hy ↦
      hprev y (List.mem_cons_of_mem x hy)

theorem next_mem (h : Siblings next prev v l) (hx : x ∈ l) (hz : next x = some z) : z ∈ l := by
  induction l generalizing v with
  | nil => exact absurd hx List.not_mem_nil
  | cons y l ih =>
    obtain ⟨-, hy, hl⟩ := h
    rcases List.mem_cons.mp hx with rfl | hmem
    · rw [hy] at hz
      exact List.mem_cons_of_mem x (List.mem_of_mem_head? (Option.mem_def.mpr hz))
    · exact List.mem_cons_of_mem y (ih hl hmem)

theorem prev_mem (h : Siblings next prev v l) (hx : x ∈ l) (hz : prev x = some z) :
    z ∈ l ∨ v = some z := by
  induction l generalizing v with
  | nil => exact absurd hx List.not_mem_nil
  | cons y l ih =>
    obtain ⟨hy, -, hl⟩ := h
    rcases List.mem_cons.mp hx with rfl | hmem
    · exact .inr (hy.symm.trans hz)
    · rcases ih hl hmem with hzl | hyz
      · exact .inl (List.mem_cons_of_mem y hzl)
      · exact .inl (Option.some.inj hyz ▸ List.mem_cons_self)

/-- A member of the rest of a list has one before it. -/
theorem exists_prev (h : Siblings next prev (some z) l) (hx : x ∈ l) : ∃ y, prev x = some y := by
  induction l generalizing z with
  | nil => exact absurd hx List.not_mem_nil
  | cons y l ih =>
    obtain ⟨hy, -, hl⟩ := h
    rcases List.mem_cons.mp hx with rfl | hmem
    · exact ⟨z, hy⟩
    · exact ih hl hmem

/-- A new member in front. -/
theorem push (h : Siblings next prev v l) (hp : x ∉ l) (hnodup : l.Nodup)
    (hnext : next' x = l.head?) (hnexts : ∀ y ∈ l, next' y = next y) (hprev : prev' x = none)
    (hhead : ∀ y, l.head? = some y → prev' y = some x)
    (hprevs : ∀ y ∈ l, l.head? ≠ some y → prev' y = prev y) :
    Siblings next' prev' none (x :: l) := by
  refine ⟨hprev, hnext, ?_⟩
  cases l with
  | nil => exact nil
  | cons y l =>
    obtain ⟨-, hy, hl⟩ := h
    refine ⟨hhead y rfl, (hnexts y List.mem_cons_self).trans hy, ?_⟩
    refine hl.congr (fun z hz ↦ hnexts z (List.mem_cons_of_mem y hz)) fun z hz ↦ ?_
    refine hprevs z (List.mem_cons_of_mem y hz) fun heq ↦ ?_
    rw [List.head?_cons, Option.some_inj] at heq
    exact (List.nodup_cons.mp hnodup).1 (heq ▸ hz)

variable [DecidableEq α]

/-- The first member after one has been taken out. -/
theorem head_erase (h : Siblings next prev v l) :
    (l.erase x).head? = if l.head? = some x then next x else l.head? := by
  cases l with
  | nil => simp
  | cons y l =>
    by_cases hxy : y = x
    · subst hxy
      rw [List.erase_cons_head, List.head?_cons, if_pos rfl, h.2.1]
    · rw [List.erase_cons_tail (by simpa using hxy), List.head?_cons,
        List.head?_cons, if_neg (by simpa using hxy)]

/-- A member is taken out: its neighbours are linked to each other. -/
theorem remove (h : Siblings next prev v l) (hx : x ∈ l) (hnodup : l.Nodup)
    (hv : ∀ z, v = some z → z ∉ l)
    (hnext : ∀ z, next' z = if prev x = some z then next x else next z)
    (hprev : ∀ z, prev' z = if next x = some z then prev x else prev z) :
    Siblings next' prev' v (l.erase x) := by
  induction l generalizing v with
  | nil => exact absurd hx List.not_mem_nil
  | cons y l ih =>
    obtain ⟨hy, hny, hl⟩ := h
    obtain ⟨hyl, hnd⟩ := List.nodup_cons.mp hnodup
    by_cases hxy : y = x
    · -- the first one goes, and its successor gets what was before it
      subst hxy
      rw [List.erase_cons_head]
      cases l with
      | nil => exact nil
      | cons w l =>
        obtain ⟨-, hnw, hlw⟩ := hl
        have hout : ∀ z ∈ w :: l, next' z = next z := fun z hz ↦ by
          rw [hnext, if_neg fun hc ↦ hv z (hy.symm.trans hc) (List.mem_cons_of_mem y hz)]
        refine ⟨?_, (hout w List.mem_cons_self).trans hnw, ?_⟩
        · rw [hprev, if_pos (show next y = some w from hny), hy]
        · refine hlw.congr (fun z hz ↦ hout z (List.mem_cons_of_mem w hz)) fun z hz ↦ ?_
          rw [hprev, if_neg]
          rw [hny, List.head?_cons, Option.some_inj]
          rintro rfl
          exact (List.nodup_cons.mp hnd).1 hz
    · have hxl : x ∈ l := (List.mem_cons.mp hx).resolve_left (Ne.symm hxy)
      rw [List.erase_cons_tail (by simpa using hxy)]
      have hvy : ∀ z, some y = some z → z ∉ l := fun z hz ↦ Option.some.inj hz ▸ hyl
      refine ⟨?_, ?_, ih hl hxl hnd hvy⟩
      · rw [hprev, if_neg fun hc ↦ hyl (hl.next_mem hxl hc), hy]
      · rw [hnext, hl.head_erase]
        -- the one behind `y` goes, or one further on
        by_cases hhead : l.head? = some x
        · have hpx : prev x = some y := by
            cases l with
            | nil => cases hhead
            | cons w l =>
              obtain rfl := Option.some.inj hhead
              exact hl.1
          rw [if_pos hpx, if_pos hhead]
        · have hpx : prev x ≠ some y := by
            intro hpx
            cases l with
            | nil => exact absurd hxl List.not_mem_nil
            | cons w l =>
              have hxw : x ≠ w := fun heq ↦ hhead (by rw [heq]; rfl)
              have hxl' := (List.mem_cons.mp hxl).resolve_left hxw
              rcases hl.2.2.prev_mem hxl' hpx with hmem | hw
              · exact hyl (List.mem_cons_of_mem w hmem)
              · exact hyl (Option.some.inj hw ▸ List.mem_cons_self)
          rw [if_neg hpx, if_neg hhead, hny]

end Siblings
