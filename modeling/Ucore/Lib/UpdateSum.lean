import Mathlib.Tactic
import Mathlib.Algebra.Order.BigOperators.Group.Finset

/-!
# Sums over a family with one member replaced

A system of finitely many parties, one state each, takes a step by replacing the state of one of
them. A quantity that is a sum over the parties then changes by the difference for that party alone.
-/

open scoped BigOperators

namespace UpdateSum

variable {α β : Type*} [Fintype α]

/-- The sum of `g` over the family `f`. -/
def total (g : β → ℤ) (f : α → β) : ℤ := ∑ a, g (f a)

variable {g : β → ℤ} {f : α → β}

/-- A count is the sum of an indicator. -/
theorem total_ite_eq_card (p : β → Prop) [DecidablePred p] (f : α → β) :
    total (fun b ↦ if p b then 1 else 0) f = (Finset.univ.filter fun a ↦ p (f a)).card := by
  rw [total, Finset.sum_boole]

theorem total_const {b : β} (h : g b = 0) : total g (fun _ : α ↦ b) = 0 :=
  Finset.sum_eq_zero fun _ _ ↦ h

theorem total_nonneg (h : ∀ a, 0 ≤ g (f a)) : 0 ≤ total g f := Finset.sum_nonneg fun a _ ↦ h a

theorem le_total (h : ∀ a, 0 ≤ g (f a)) (a : α) : g (f a) ≤ total g f :=
  Finset.single_le_sum (fun x _ ↦ h x) (Finset.mem_univ a)

variable [DecidableEq α]

theorem add_le_total (h : ∀ a, 0 ≤ g (f a)) {a b : α} (hab : a ≠ b) :
    g (f a) + g (f b) ≤ total g f := by
  rw [total, ← Finset.sum_pair (f := fun x ↦ g (f x)) hab]
  exact Finset.sum_le_sum_of_subset_of_nonneg (Finset.subset_univ _) fun x _ _ ↦ h x

theorem total_update (g : β → ℤ) (f : α → β) (a : α) (b : β) :
    total g (Function.update f a b) = total g f - g (f a) + g b := by
  have hupd : (fun x ↦ g (Function.update f a b x)) =
      Function.update (fun x ↦ g (f x)) a (g b) :=
    funext fun x ↦ Function.apply_update (fun _ ↦ g) f a b x
  have hsum : total g f = g (f a) + ∑ x ∈ Finset.univ \ {a}, g (f x) := by
    rw [total, ← Finset.add_sum_erase _ _ (Finset.mem_univ a), Finset.sdiff_singleton_eq_erase]
  rw [total, hupd, Finset.sum_update_of_mem (Finset.mem_univ a), hsum]
  ring

/-- A step that keeps the party's share keeps the sum. -/
theorem total_update_of_eq {a : α} {b : β} (h : g b = g (f a)) :
    total g (Function.update f a b) = total g f := by
  rw [total_update, h, sub_add_cancel]

end UpdateSum
