import Mathlib.Tactic

/-!
# Wait queues

A family of queues and a party's own word on which of them it waits in. The two views agree: a queue
holds exactly the parties that say they wait in it, each once. Taking the first party out of a
queue, putting one at the end of a queue and moving a party that waits nowhere keep them so.
-/

namespace WaitQueue

variable {ι P : Type*}

/-- Queue `x` holds exactly the parties whose place is `x`, each once. -/
structure Agree (queue : ι → List P) (place : P → Option ι) : Prop where
  nodup : ∀ x, (queue x).Nodup
  mem_iff : ∀ x p, p ∈ queue x ↔ place p = some x

namespace Agree

variable {queue : ι → List P} {place : P → Option ι} {x : ι} {p : P} {rest : List P}

theorem place_head (h : Agree queue place) (hq : queue x = p :: rest) : place p = some x :=
  (h.mem_iff x p).mp (hq ▸ List.mem_cons_self)

theorem notMem (h : Agree queue place) (hp : place p = none) (x : ι) : p ∉ queue x := fun hmem ↦ by
  rw [(h.mem_iff x p).mp hmem] at hp
  cases hp

theorem of_nil : Agree (fun _ : ι ↦ ([] : List P)) fun _ ↦ none where
  nodup _ := List.nodup_nil
  mem_iff _ _ := ⟨fun h ↦ absurd h List.not_mem_nil, fun h ↦ by cases h⟩

variable [DecidableEq P]

/-- A party that waits nowhere stays so. -/
theorem stay (h : Agree queue place) (hp : place p = none) :
    Agree queue (Function.update place p none) := by
  rw [← hp, Function.update_eq_self]
  exact h

variable [DecidableEq ι]

/-- The first party of a queue leaves it. -/
theorem pop (h : Agree queue place) (hq : queue x = p :: rest) :
    Agree (Function.update queue x rest) (Function.update place p none) where
  nodup := by
    have hnodup : (p :: rest).Nodup := hq ▸ h.nodup x
    exact (Function.forall_update_iff queue (p := fun _ l ↦ l.Nodup)).mpr
      ⟨hnodup.of_cons, fun y _ ↦ h.nodup y⟩
  mem_iff y q := by
    have hnodup : (p :: rest).Nodup := hq ▸ h.nodup x
    rcases eq_or_ne q p with rfl | hne
    · rw [Function.update_self]
      refine ⟨fun hmem ↦ absurd hmem ?_, fun hnone ↦ by cases hnone⟩
      rcases eq_or_ne y x with rfl | hy
      · rw [Function.update_self]
        exact hnodup.notMem
      · rw [Function.update_of_ne hy, h.mem_iff, h.place_head hq]
        exact fun heq ↦ hy (Option.some.inj heq).symm
    · rw [Function.update_of_ne hne, ← h.mem_iff]
      rcases eq_or_ne y x with rfl | hy
      · rw [Function.update_self, hq, List.mem_cons]
        exact ⟨.inr, fun hmem ↦ hmem.resolve_left hne⟩
      · rw [Function.update_of_ne hy]

/-- A party that waits nowhere joins the end of a queue. -/
theorem push (h : Agree queue place) (hp : place p = none) (x : ι) :
    Agree (Function.update queue x (queue x ++ [p])) (Function.update place p (some x)) where
  nodup := by
    refine (Function.forall_update_iff queue (p := fun _ l ↦ l.Nodup)).mpr
      ⟨List.nodup_append.mpr ⟨h.nodup x, List.nodup_singleton p, fun a ha b hb hab ↦ ?_⟩,
        fun y _ ↦ h.nodup y⟩
    rw [hab, List.mem_singleton.mp hb] at ha
    exact h.notMem hp x ha
  mem_iff y q := by
    rcases eq_or_ne q p with rfl | hne
    · rw [Function.update_self]
      rcases eq_or_ne y x with rfl | hy
      · rw [Function.update_self]
        exact ⟨fun _ ↦ rfl, fun _ ↦ List.mem_append_right _ (List.mem_singleton_self q)⟩
      · rw [Function.update_of_ne hy]
        exact ⟨fun hmem ↦ absurd hmem (h.notMem hp y),
          fun heq ↦ absurd (Option.some.inj heq).symm hy⟩
    · rw [Function.update_of_ne hne, ← h.mem_iff]
      rcases eq_or_ne y x with rfl | hy
      · rw [Function.update_self, List.mem_append, List.mem_singleton]
        exact ⟨fun hmem ↦ hmem.resolve_right hne, .inl⟩
      · rw [Function.update_of_ne hy]

end Agree

end WaitQueue
