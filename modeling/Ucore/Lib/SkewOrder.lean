import Ucore.Lib.SkewHeap

/-!
# The order of a skew heap

A heap is ordered by a key when no member has a smaller key than the members above it, so that the
root has the smallest of all. The operations keep this as long as the comparison they use agrees
with the key on the members at hand; nothing is asked of it anywhere else.
-/

namespace SkewHeap

variable {α κ : Type} [LinearOrder κ] {key key' : α → κ} {lt : α → α → Bool} {a : α}
  {t u : SkewHeap α}

/-- No member has a smaller key than one above it. -/
def Ordered (key : α → κ) : SkewHeap α → Prop
  | nil => True
  | node a l r => (∀ x ∈ l.toList ++ r.toList, key a ≤ key x) ∧ Ordered key l ∧ Ordered key r

/-- The comparison agrees with the key between the members of two lists. -/
def Agrees (lt : α → α → Bool) (key : α → κ) (l m : List α) : Prop :=
  ∀ a ∈ l, ∀ b ∈ m, lt a b = true ↔ key a < key b

theorem Agrees.mono {l l' m m' : List α} (h : Agrees lt key l m) (hl : l' ⊆ l) (hm : m' ⊆ m) :
    Agrees lt key l' m' := fun a ha b hb ↦ h a (hl ha) b (hm hb)

theorem mem_merge {x : α} : x ∈ (merge lt t u).toList ↔ x ∈ t.toList ∨ x ∈ u.toList := by
  rw [(toList_merge lt t u).mem_iff, List.mem_append]

theorem Ordered.root_le (h : t.Ordered key) (hroot : t.root = some a) {x : α} (hx : x ∈ t.toList) :
    key a ≤ key x := by
  cases t with
  | nil => cases hroot
  | node b l r =>
    cases hroot
    rcases List.mem_cons.mp hx with rfl | hx
    · exact le_rfl
    · exact h.1 x hx

theorem Ordered.congr (h : t.Ordered key) (heq : ∀ x ∈ t.toList, key' x = key x) :
    t.Ordered key' := by
  induction t with
  | nil => trivial
  | node a l r ihl ihr =>
    have hl : ∀ x ∈ l.toList, key' x = key x := fun x hx ↦
      heq x (List.mem_cons_of_mem a (List.mem_append_left _ hx))
    have hr : ∀ x ∈ r.toList, key' x = key x := fun x hx ↦
      heq x (List.mem_cons_of_mem a (List.mem_append_right _ hx))
    refine ⟨fun x hx ↦ ?_, ihl h.2.1 hl, ihr h.2.2 hr⟩
    rw [heq a List.mem_cons_self, heq x (List.mem_cons_of_mem a hx)]
    exact h.1 x hx

theorem Ordered.merge (ht : t.Ordered key) (hu : u.Ordered key)
    (hlt : Agrees lt key t.toList u.toList) : (SkewHeap.merge lt t u).Ordered key := by
  induction t generalizing u with
  | nil => exact hu
  | node a l r _ ih =>
    have hr : r.toList ⊆ (node a l r).toList := fun x hx ↦
      List.mem_cons_of_mem a (List.mem_append_right _ hx)
    rw [SkewHeap.merge]
    induction u with
    | nil =>
      rw [mergeNode]
      exact ht
    | node b l' r' _ ih' =>
      have hr' : r'.toList ⊆ (node b l' r').toList := fun x hx ↦
        List.mem_cons_of_mem b (List.mem_append_right _ hx)
      rw [mergeNode]
      by_cases hab : lt a b = true
      · have hkey : key a < key b := (hlt a List.mem_cons_self b List.mem_cons_self).mp hab
        rw [if_pos hab]
        refine ⟨fun x hx ↦ ?_, ih ht.2.2 hu (hlt.mono hr fun _ h ↦ h), ht.2.1⟩
        rcases List.mem_append.mp hx with hx | hx
        · rcases mem_merge.mp hx with hx | hx
          · exact ht.1 x (List.mem_append_right _ hx)
          · exact hkey.le.trans (hu.root_le rfl hx)
        · exact ht.1 x (List.mem_append_left _ hx)
      · have hkey : key b ≤ key a :=
          le_of_not_gt fun hcon ↦ hab ((hlt a List.mem_cons_self b List.mem_cons_self).mpr hcon)
        rw [if_neg hab]
        refine ⟨fun x hx ↦ ?_, ih' hu.2.2 (hlt.mono (fun _ h ↦ h) hr'), hu.2.1⟩
        rcases List.mem_append.mp hx with hx | hx
        · have hmem : x ∈ (SkewHeap.merge lt (node a l r) r').toList := hx
          rcases mem_merge.mp hmem with hx | hx
          · exact hkey.trans (ht.root_le rfl hx)
          · exact hu.1 x (List.mem_append_right _ hx)
        · exact hu.1 x (List.mem_append_left _ hx)

theorem Ordered.insert (ht : t.Ordered key) (hlt : Agrees lt key t.toList [a]) :
    (SkewHeap.insert lt t a).Ordered key :=
  ht.merge ⟨fun _ hx ↦ absurd hx List.not_mem_nil, trivial, trivial⟩ hlt

theorem mem_insert {x : α} : x ∈ (SkewHeap.insert lt t a).toList ↔ x = a ∨ x ∈ t.toList := by
  rw [(toList_insert lt t a).mem_iff, List.mem_cons]

theorem Ordered.remove_root [DecidableEq α] (ht : t.Ordered key) (hroot : t.root = some a)
    (hlt : ∀ x ∈ t.toList, ∀ y ∈ t.toList, x ≠ a → y ≠ a → (lt x y = true ↔ key x < key y))
    (hnodup : t.toList.Nodup) : (SkewHeap.remove lt t a).Ordered key := by
  cases t with
  | nil => cases hroot
  | node b l r =>
    cases hroot
    rw [remove, if_pos rfl]
    have hnot : a ∉ l.toList ++ r.toList := hnodup.notMem
    refine ht.2.1.merge ht.2.2 fun x hx y hy ↦ ?_
    have hx' : x ∈ l.toList ++ r.toList := List.mem_append_left _ hx
    have hy' : y ∈ l.toList ++ r.toList := List.mem_append_right _ hy
    exact hlt x (List.mem_cons_of_mem a hx') y (List.mem_cons_of_mem a hy')
      (fun heq ↦ hnot (heq ▸ hx')) fun heq ↦ hnot (heq ▸ hy')

/-- A member that is not greater than the root goes on top of the heap. -/
theorem insert_of_not_lt {b : α} {l r : SkewHeap α} (h : ¬lt b a = true) :
    SkewHeap.insert lt (node b l r) a = node a (node b l r) nil := by
  rw [SkewHeap.insert, SkewHeap.merge, mergeNode, if_neg h, mergeNode]

/-- A greater one leaves the root in place. -/
theorem root_insert_of_lt {b : α} {l r : SkewHeap α} (h : lt b a = true) :
    (SkewHeap.insert lt (node b l r) a).root = some b := by
  rw [SkewHeap.insert, SkewHeap.merge, mergeNode, if_pos h, root_node]

/-- The heap below a root without a right subtree. -/
theorem remove_top [DecidableEq α] : SkewHeap.remove lt (node a t nil) a = t := by
  rw [remove, if_pos rfl]
  cases t with
  | nil => rfl
  | node b l r => rw [SkewHeap.merge, mergeNode]

end SkewHeap
