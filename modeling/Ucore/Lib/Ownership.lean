import Mathlib.Tactic

/-!
# Exact ownership

A pool of resources, some of them free, and owners that hold at most one resource each. Ownership
is exact when the resources that are not free are just the ones that are held, and no two owners
hold the same one: nothing is lost, nothing is shared, nothing held is free. Taking a free resource
and giving one back keep ownership exact.
-/

namespace Ownership

variable {ι β : Type}

/-- Every resource of the pool `res` is free or held by exactly one owner. -/
structure Exact (res : Set β) (free : β → Prop) (own : ι → Option β) : Prop where
  /-- What is not free has an owner. -/
  covers : ∀ b ∈ res, ¬free b → ∃ o, own o = some b
  /-- What has an owner is in the pool and not free. -/
  held : ∀ {o b}, own o = some b → b ∈ res ∧ ¬free b
  /-- No two owners hold the same resource. -/
  inj : ∀ {o o' b}, own o = some b → own o' = some b → o = o'

variable {res : Set β} {free free' : β → Prop} {own : ι → Option β}

theorem Exact.congr (h : Exact res free own) (hfree : ∀ b, free' b ↔ free b) :
    Exact res free' own where
  covers b hb hf := h.covers b hb (by rwa [hfree] at hf)
  held ho := ⟨(h.held ho).1, by rw [hfree]; exact (h.held ho).2⟩
  inj := h.inj

/-- What different owners hold is different. -/
theorem Exact.ne (h : Exact res free own) {o o' : ι} {b b' : β} (ho : own o = some b)
    (ho' : own o' = some b') (hne : o ≠ o') : b ≠ b' := by
  rintro rfl
  exact hne (h.inj ho ho')

/-- What is held is not what is free. -/
theorem Exact.ne_of_free (h : Exact res free own) {o : ι} {b b' : β} (ho : own o = some b)
    (hfree : free b') : b ≠ b' := by
  rintro rfl
  exact (h.held ho).2 hfree

/-- Some owners give back what they hold. -/
theorem Exact.releaseAll (h : Exact res free own) (P : ι → Prop) [DecidablePred P] :
    Exact res (fun c ↦ free c ∨ ∃ o, P o ∧ own o = some c)
      (fun o ↦ if P o then none else own o) where
  covers c hc hf := by
    obtain ⟨o, ho⟩ := h.covers c hc fun hfc ↦ hf (Or.inl hfc)
    exact ⟨o, (if_neg fun hP ↦ hf (Or.inr ⟨o, hP, ho⟩)).trans ho⟩
  held {o c} ho := by
    by_cases hP : P o
    · rw [if_pos hP] at ho
      cases ho
    · rw [if_neg hP] at ho
      refine ⟨(h.held ho).1, ?_⟩
      rintro (hc | ⟨o', hP', ho'⟩)
      · exact (h.held ho).2 hc
      · exact hP (h.inj ho' ho ▸ hP')
  inj {o₁ o₂ c} h₁ h₂ := by
    by_cases hP₁ : P o₁
    · rw [if_pos hP₁] at h₁
      cases h₁
    · by_cases hP₂ : P o₂
      · rw [if_pos hP₂] at h₂
        cases h₂
      · rw [if_neg hP₁] at h₁
        rw [if_neg hP₂] at h₂
        exact h.inj h₁ h₂

variable [DecidableEq ι]

/-- An owner that held nothing takes a free resource. -/
theorem Exact.take (h : Exact res free own) {o : ι} {b : β} (ho : own o = none) (hb : b ∈ res)
    (hfree : free b) :
    Exact res (fun c ↦ free c ∧ c ≠ b) (Function.update own o (some b)) where
  covers c hc hf := by
    rcases eq_or_ne c b with rfl | hne
    · exact ⟨o, Function.update_self ..⟩
    · obtain ⟨o', ho'⟩ := h.covers c hc fun hfc ↦ hf ⟨hfc, hne⟩
      have hoo : o' ≠ o := by
        rintro rfl
        rw [ho] at ho'
        cases ho'
      exact ⟨o', by rw [Function.update_of_ne hoo, ho']⟩
  held {o' c} ho' := by
    rcases eq_or_ne o' o with rfl | hne
    · rw [Function.update_self] at ho'
      obtain rfl := Option.some.inj ho'
      exact ⟨hb, fun hc ↦ hc.2 rfl⟩
    · rw [Function.update_of_ne hne] at ho'
      exact ⟨(h.held ho').1, fun hc ↦ (h.held ho').2 hc.1⟩
  inj {o₁ o₂ c} h₁ h₂ := by
    by_cases hne₁ : o₁ = o <;> by_cases hne₂ : o₂ = o
    · rw [hne₁, hne₂]
    · rw [hne₁, Function.update_self] at h₁
      rw [Function.update_of_ne hne₂] at h₂
      obtain rfl := Option.some.inj h₁
      exact absurd hfree (h.held h₂).2
    · rw [Function.update_of_ne hne₁] at h₁
      rw [hne₂, Function.update_self] at h₂
      obtain rfl := Option.some.inj h₂
      exact absurd hfree (h.held h₁).2
    · rw [Function.update_of_ne hne₁] at h₁
      rw [Function.update_of_ne hne₂] at h₂
      exact h.inj h₁ h₂

/-- An owner gives its resource back. -/
theorem Exact.release (h : Exact res free own) {o : ι} {b : β} (ho : own o = some b) :
    Exact res (fun c ↦ free c ∨ c = b) (Function.update own o none) := by
  have hown : Function.update own o none = fun o' ↦ if o' = o then none else own o' := by
    funext o'
    rw [Function.update_apply]
  rw [hown]
  refine (h.releaseAll (· = o)).congr fun c ↦ or_congr_right ?_
  constructor
  · rintro rfl
    exact ⟨o, rfl, ho⟩
  · rintro ⟨o', rfl, ho'⟩
    exact Option.some.inj (ho'.symm.trans ho)

end Ownership
