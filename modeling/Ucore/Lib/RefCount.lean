import Mathlib.Tactic

/-!
# Reference counts

Slots that each hold a reference to one object, or none. The number of uses of an object among a
finite set of slots changes by one when a slot is written, and it is zero exactly when no slot holds
the object.
-/

namespace RefCount

variable {ι κ : Type*} [DecidableEq κ]

/-- The number of slots in `S` that hold `x`. -/
def uses (S : Finset ι) (g : ι → Option κ) (x : κ) : ℕ := (S.filter fun i ↦ g i = some x).card

variable {S : Finset ι} {g g' : ι → Option κ} {x : κ} {i : ι}

theorem uses_congr (h : ∀ i ∈ S, g' i = g i) : uses S g' x = uses S g x := by
  rw [uses, uses]
  congr 1
  refine Finset.filter_congr fun i hi ↦ ?_
  rw [h i hi]

theorem uses_pos_iff : 0 < uses S g x ↔ ∃ i ∈ S, g i = some x := by
  rw [uses, Finset.card_pos, Finset.filter_nonempty_iff]

theorem uses_pos (hi : i ∈ S) (h : g i = some x) : 0 < uses S g x := uses_pos_iff.mpr ⟨i, hi, h⟩

theorem uses_eq_zero_iff : uses S g x = 0 ↔ ∀ i ∈ S, g i ≠ some x := by
  rw [← Nat.le_zero, ← not_lt, uses_pos_iff]
  push Not
  rfl

/-- The object in the one slot that holds it. -/
theorem uses_eq_one (hi : i ∈ S) (h : g i = some x) (honly : ∀ j ∈ S, g j = some x → j = i) :
    uses S g x = 1 := by
  rw [uses, Finset.card_eq_one]
  refine ⟨i, Finset.ext fun j ↦ ?_⟩
  rw [Finset.mem_filter, Finset.mem_singleton]
  exact ⟨fun hj ↦ honly j hj.1 hj.2, fun hj ↦ hj ▸ ⟨hi, h⟩⟩

variable [DecidableEq ι]

/-- A slot is written. -/
theorem uses_update (hi : i ∈ S) (o : Option κ) :
    (uses S (Function.update g i o) x : ℤ) =
      uses S g x - (if g i = some x then 1 else 0) + (if o = some x then 1 else 0) := by
  have hsplit : ∀ f : ι → Option κ, (uses S f x : ℤ) =
      uses (S.erase i) f x + (if f i = some x then 1 else 0) := by
    intro f
    rw [uses, uses, ← Finset.insert_erase hi, Finset.filter_insert, Finset.erase_insert_eq_erase,
      Finset.erase_idem]
    split_ifs with hf
    · rw [Finset.card_insert_of_notMem (by simp)]
      push_cast
      ring
    · ring
  have hrest : uses (S.erase i) (Function.update g i o) x = uses (S.erase i) g x :=
    uses_congr fun j hj ↦ Function.update_of_ne (Finset.ne_of_mem_erase hj) _ _
  rw [hsplit, hsplit g, hrest, Function.update_self]
  ring

/-- More slots, none of which is in use. -/
theorem uses_union {T : Finset ι} (h : ∀ i ∈ T, g i = none) : uses (S ∪ T) g x = uses S g x := by
  rw [uses, uses, Finset.filter_union]
  have hnone : T.filter (fun i ↦ g i = some x) = ∅ := by
    refine Finset.filter_eq_empty_iff.mpr fun i hi ↦ ?_
    rw [h i hi]
    exact (Option.some_ne_none x).symm
  rw [hnone, Finset.union_empty]

end RefCount
