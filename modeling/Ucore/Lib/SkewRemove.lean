import Mathlib.Data.Finset.Card
import Ucore.Lib.SkewOrder

/-!
# Removal from a skew heap

A member is taken out wherever it is: the heap keeps the other members and its order. The order is
that of a key; a comparison that is a total preorder on the members has one, the number of members
below (`rank_le_iff`), and `Ordered.of_le` moves from one key to another that orders the members in
the same way.
-/

namespace SkewHeap

variable {α κ : Type} [DecidableEq α] {lt : α → α → Bool} {a x : α} {t u : SkewHeap α}

/-! ## Members -/

theorem remove_of_notMem (h : a ∉ t.toList) : remove lt t a = t := by
  induction t with
  | nil => rfl
  | node b l r ihl ihr =>
    rw [toList_node, List.mem_cons, List.mem_append, not_or, not_or] at h
    rw [remove, if_neg (Ne.symm h.1), ihl h.2.1, ihr h.2.2]

/-- Removal takes out one member and loses no other. -/
theorem toList_remove (lt : α → α → Bool) (hnodup : t.toList.Nodup) (ha : a ∈ t.toList) :
    t.toList.Perm (a :: (remove lt t a).toList) := by
  induction t with
  | nil => exact absurd ha List.not_mem_nil
  | node b l r ihl ihr =>
    rw [toList_node] at hnodup ha
    obtain ⟨hb, hrest⟩ := List.nodup_cons.mp hnodup
    obtain ⟨hl, hr, hdisj⟩ := List.nodup_append'.mp hrest
    rw [toList_node, remove]
    by_cases hba : b = a
    · rw [if_pos hba, hba]
      exact (toList_merge lt l r).symm.cons a
    · rw [if_neg hba, toList_node]
      rcases List.mem_append.mp ((List.mem_cons.mp ha).resolve_left (Ne.symm hba)) with hal | har
      · have hnot : a ∉ r.toList := fun har ↦ hdisj hal har
        rw [remove_of_notMem hnot]
        calc b :: (l.toList ++ r.toList)
            |>.Perm (b :: (a :: (remove lt l a).toList ++ r.toList)) :=
              ((ihl hl hal).append_right _).cons b
          _ |>.Perm (a :: b :: ((remove lt l a).toList ++ r.toList)) := List.Perm.swap a b _
      · have hnot : a ∉ l.toList := fun hal ↦ hdisj hal har
        rw [remove_of_notMem hnot]
        calc b :: (l.toList ++ r.toList)
            |>.Perm (b :: (l.toList ++ a :: (remove lt r a).toList)) :=
              ((ihr hr har).append_left _).cons b
          _ |>.Perm (b :: a :: (l.toList ++ (remove lt r a).toList)) := List.perm_middle.cons b
          _ |>.Perm (a :: b :: (l.toList ++ (remove lt r a).toList)) := List.Perm.swap a b _

theorem nodup_remove (lt : α → α → Bool) (hnodup : t.toList.Nodup) (ha : a ∈ t.toList) :
    (remove lt t a).toList.Nodup ∧ a ∉ (remove lt t a).toList := by
  have h := (toList_remove lt hnodup ha).nodup_iff.mp hnodup
  exact ⟨h.of_cons, h.notMem⟩

theorem mem_of_mem_remove (h : x ∈ (remove lt t a).toList) : x ∈ t.toList := by
  induction t with
  | nil => exact h
  | node b l r ihl ihr =>
    rw [remove] at h
    by_cases hba : b = a
    · rw [if_pos hba] at h
      exact List.mem_cons_of_mem b (List.mem_append.mpr (mem_merge.mp h))
    · rw [if_neg hba, toList_node] at h
      rcases List.mem_cons.mp h with rfl | h
      · exact List.mem_cons_self
      · refine List.mem_cons_of_mem b (List.mem_append.mpr ?_)
        exact (List.mem_append.mp h).imp ihl ihr

/-! ## Order -/

section Order

variable [LinearOrder κ] {key : α → κ}

omit [DecidableEq α] in
/-- Another key that does not turn the order of the members around. -/
theorem Ordered.of_le {κ' : Type} [LinearOrder κ'] {key' : α → κ'} (h : t.Ordered key)
    (hle : ∀ x ∈ t.toList, ∀ y ∈ t.toList, key x ≤ key y → key' x ≤ key' y) : t.Ordered key' := by
  induction t with
  | nil => trivial
  | node a l r ihl ihr =>
    have hl : l.toList ⊆ (node a l r).toList := fun x hx ↦
      List.mem_cons_of_mem a (List.mem_append_left _ hx)
    have hr : r.toList ⊆ (node a l r).toList := fun x hx ↦
      List.mem_cons_of_mem a (List.mem_append_right _ hx)
    refine ⟨fun x hx ↦ ?_, ihl h.2.1 fun x hx y hy ↦ hle x (hl hx) y (hl hy),
      ihr h.2.2 fun x hx y hy ↦ hle x (hr hx) y (hr hy)⟩
    exact hle a List.mem_cons_self x (List.mem_cons_of_mem a hx) (h.1 x hx)

/-- The members below the place that becomes vacant are merged in order, and they are not smaller
than the ones above it. -/
theorem Ordered.remove (h : t.Ordered key) (hlt : Agrees lt key t.toList t.toList) :
    (SkewHeap.remove lt t a).Ordered key := by
  induction t with
  | nil => trivial
  | node b l r ihl ihr =>
    have hl : l.toList ⊆ (node b l r).toList := fun x hx ↦
      List.mem_cons_of_mem b (List.mem_append_left _ hx)
    have hr : r.toList ⊆ (node b l r).toList := fun x hx ↦
      List.mem_cons_of_mem b (List.mem_append_right _ hx)
    rw [SkewHeap.remove]
    by_cases hba : b = a
    · rw [if_pos hba]
      exact h.2.1.merge h.2.2 (hlt.mono hl hr)
    · rw [if_neg hba]
      refine ⟨fun x hx ↦ h.1 x ?_, ihl h.2.1 (hlt.mono hl hl), ihr h.2.2 (hlt.mono hr hr)⟩
      exact List.mem_append.mpr ((List.mem_append.mp hx).imp mem_of_mem_remove mem_of_mem_remove)

end Order

/-! ## Comparisons -/

/-- On some members the comparison is the strict part of a total preorder, where `a` is at most `b`
unless `b` is smaller. -/
structure TotalOn (lt : α → α → Bool) (S : Finset α) : Prop where
  total : ∀ a ∈ S, ∀ b ∈ S, ¬lt b a = true ∨ ¬lt a b = true
  trans : ∀ a ∈ S, ∀ b ∈ S, ∀ c ∈ S, ¬lt b a = true → ¬lt c b = true → ¬lt c a = true

/-- The number of members that are smaller. -/
def rank (lt : α → α → Bool) (S : Finset α) (a : α) : ℕ := (S.filter fun x ↦ lt x a = true).card

variable {S : Finset α} {b : α}

omit [DecidableEq α] in
theorem TotalOn.mono {S' : Finset α} (h : TotalOn lt S) (hsub : S' ⊆ S) : TotalOn lt S' where
  total a ha b hb := h.total a (hsub ha) b (hsub hb)
  trans a ha b hb c hc := h.trans a (hsub ha) b (hsub hb) c (hsub hc)

omit [DecidableEq α] in
theorem TotalOn.congr {lt' : α → α → Bool} (h : TotalOn lt S)
    (heq : ∀ a ∈ S, ∀ b ∈ S, lt' a b = lt a b) : TotalOn lt' S where
  total a ha b hb := by
    rw [heq a ha b hb, heq b hb a ha]
    exact h.total a ha b hb
  trans a ha b hb c hc := by
    rw [heq b hb a ha, heq c hc b hb, heq c hc a ha]
    exact h.trans a ha b hb c hc

omit [DecidableEq α] in
theorem TotalOn.irrefl (h : TotalOn lt S) (ha : a ∈ S) : ¬lt a a = true :=
  (h.total a ha a ha).elim id id

omit [DecidableEq α] in
theorem TotalOn.lt_trans {c : α} (h : TotalOn lt S) (ha : a ∈ S) (hb : b ∈ S) (hc : c ∈ S)
    (hab : lt a b = true) (hbc : lt b c = true) : lt a c = true := by
  by_contra hac
  have hcb := (h.total b hb c hc).resolve_right fun hcon ↦ hcon hbc
  exact h.trans b hb c hc a ha hcb hac hab

omit [DecidableEq α] in
theorem TotalOn.lt_iff_rank (h : TotalOn lt S) (ha : a ∈ S) (hb : b ∈ S) :
    lt a b = true ↔ rank lt S a < rank lt S b := by
  constructor
  · intro hab
    apply Finset.card_lt_card
    rw [Finset.ssubset_iff_of_subset]
    · refine ⟨a, Finset.mem_filter.mpr ⟨ha, hab⟩, fun hcon ↦ ?_⟩
      exact h.irrefl ha (Finset.mem_filter.mp hcon).2
    · intro x hx
      obtain ⟨hx, hxa⟩ := Finset.mem_filter.mp hx
      exact Finset.mem_filter.mpr ⟨hx, h.lt_trans hx ha hb hxa hab⟩
  · intro hlt
    by_contra hab
    refine absurd hlt (not_lt.mpr (Finset.card_le_card fun x hx ↦ ?_))
    obtain ⟨hx, hxb⟩ := Finset.mem_filter.mp hx
    refine Finset.mem_filter.mpr ⟨hx, ?_⟩
    by_contra hxa
    exact h.trans b hb a ha x hx hab hxa hxb

omit [DecidableEq α] in
theorem TotalOn.rank_le_iff (h : TotalOn lt S) (ha : a ∈ S) (hb : b ∈ S) :
    rank lt S a ≤ rank lt S b ↔ ¬lt b a = true := by
  rw [h.lt_iff_rank hb ha, not_lt]

end SkewHeap
