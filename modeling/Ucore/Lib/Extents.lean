import Mathlib.Tactic

/-!
# Sorted lists of maximal intervals

A finite set of numbers as a list of extents `(start, size)`. A list is *gapped* when its extents
are nonempty, come in ascending order and never touch: then they are the maximal intervals of the
set they cover, so an interval inside the set lies inside one of them, and the size of the set is
the sum of their sizes.
-/

namespace Extents

/-- The members of one extent. -/
def span (x : ℕ × ℕ) : Finset ℕ := Finset.Ico x.1 (x.1 + x.2)

/-- The members of all extents of a list. -/
def cover (xs : List (ℕ × ℕ)) : Finset ℕ := xs.toFinset.biUnion span

@[simp] theorem mem_span {p : ℕ} {x : ℕ × ℕ} : p ∈ span x ↔ x.1 ≤ p ∧ p < x.1 + x.2 :=
  Finset.mem_Ico

@[simp] theorem card_span (x : ℕ × ℕ) : (span x).card = x.2 := by
  rw [span, Nat.card_Ico, Nat.add_sub_cancel_left]

theorem mem_cover {p : ℕ} {xs : List (ℕ × ℕ)} : p ∈ cover xs ↔ ∃ x ∈ xs, p ∈ span x := by
  rw [cover, Finset.mem_biUnion]
  simp only [List.mem_toFinset]

@[simp] theorem cover_nil : cover [] = ∅ := rfl

@[simp] theorem cover_cons (x : ℕ × ℕ) (xs : List (ℕ × ℕ)) :
    cover (x :: xs) = span x ∪ cover xs := by
  ext p
  simp only [mem_cover, Finset.mem_union, List.exists_mem_cons_iff]

@[simp] theorem cover_append (xs ys : List (ℕ × ℕ)) :
    cover (xs ++ ys) = cover xs ∪ cover ys := by
  induction xs with
  | nil => simp
  | cons x xs ih => simp [ih]

theorem span_subset_cover {x : ℕ × ℕ} {xs : List (ℕ × ℕ)} (hx : x ∈ xs) :
    span x ⊆ cover xs := fun _ hp ↦ mem_cover.mpr ⟨x, hx, hp⟩

theorem start_mem_span {x : ℕ × ℕ} (h : 0 < x.2) : x.1 ∈ span x :=
  mem_span.mpr ⟨le_rfl, Nat.lt_add_of_pos_right h⟩

/-- Two extents that touch are one. -/
theorem span_join (a m n : ℕ) : span (a, m) ∪ span (a + m, n) = span (a, m + n) := by
  ext p
  simp only [Finset.mem_union, mem_span]
  omega

/-! ## Gapped lists -/

/-- The extents are nonempty, ascend and do not touch. -/
structure Gapped (xs : List (ℕ × ℕ)) : Prop where
  pos : ∀ x ∈ xs, 0 < x.2
  gap : xs.Pairwise fun x y ↦ x.1 + x.2 < y.1

namespace Gapped

variable {xs us vs : List (ℕ × ℕ)} {x : ℕ × ℕ}

theorem nil : Gapped [] := ⟨fun _ h ↦ absurd h List.not_mem_nil, List.Pairwise.nil⟩

theorem append (hu : Gapped us) (hv : Gapped vs)
    (h : ∀ u ∈ us, ∀ v ∈ vs, u.1 + u.2 < v.1) : Gapped (us ++ vs) where
  pos y hy := (List.mem_append.mp hy).elim (hu.pos y) (hv.pos y)
  gap := List.pairwise_append.mpr ⟨hu.gap, hv.gap, h⟩

theorem left (h : Gapped (us ++ vs)) : Gapped us where
  pos y hy := h.pos y (List.mem_append_left vs hy)
  gap := (List.pairwise_append.mp h.gap).1

theorem right (h : Gapped (us ++ vs)) : Gapped vs where
  pos y hy := h.pos y (List.mem_append_right us hy)
  gap := (List.pairwise_append.mp h.gap).2.1

theorem tail (h : Gapped (x :: vs)) : Gapped vs where
  pos y hy := h.pos y (List.mem_cons_of_mem x hy)
  gap := (List.pairwise_cons.mp h.gap).2

theorem lt (h : Gapped (us ++ vs)) {u v : ℕ × ℕ} (hu : u ∈ us) (hv : v ∈ vs) :
    u.1 + u.2 < v.1 := (List.pairwise_append.mp h.gap).2.2 u hu v hv

/-- An extent between those that end before it and those that start behind it. -/
theorem insert (hu : Gapped us) (hv : Gapped vs) (hx : 0 < x.2)
    (hlow : ∀ u ∈ us, u.1 + u.2 < x.1) (hhigh : ∀ v ∈ vs, x.1 + x.2 < v.1) :
    Gapped (us ++ x :: vs) := by
  have hcons : Gapped (x :: vs) := by
    refine ⟨?_, List.pairwise_cons.mpr ⟨hhigh, hv.gap⟩⟩
    intro y hy
    rcases List.mem_cons.mp hy with rfl | hy
    · exact hx
    · exact hv.pos y hy
  refine hu.append hcons ?_
  intro u hmem v hmem'
  rcases List.mem_cons.mp hmem' with rfl | hmem'
  · exact hlow u hmem
  · exact (hlow u hmem).trans (lt_of_le_of_lt (Nat.le_add_right _ _) (hhigh v hmem'))

theorem remove (h : Gapped (us ++ x :: vs)) : Gapped (us ++ vs) :=
  h.left.append h.right.tail fun _ hu _ hv ↦ h.lt hu (List.mem_cons_of_mem x hv)

theorem low (h : Gapped (us ++ x :: vs)) : ∀ u ∈ us, u.1 + u.2 < x.1 := fun _ hu ↦
  h.lt hu List.mem_cons_self

theorem high (h : Gapped (us ++ x :: vs)) : ∀ v ∈ vs, x.1 + x.2 < v.1 :=
  (List.pairwise_cons.mp h.right.gap).1

/-- What is covered besides one extent lies outside it. -/
theorem notMem_span (h : Gapped (us ++ x :: vs)) {p : ℕ} (hp : p ∈ cover (us ++ vs)) :
    p ∉ span x := by
  rw [cover_append, Finset.mem_union, mem_cover, mem_cover] at hp
  rw [mem_span]
  rcases hp with ⟨u, hu, hpu⟩ | ⟨v, hv, hpv⟩
  · have hlt := h.low u hu
    rw [mem_span] at hpu
    omega
  · have hlt := h.high v hv
    rw [mem_span] at hpv
    omega

/-- A whole extent taken out. -/
theorem cover_remove (h : Gapped (us ++ x :: vs)) :
    cover (us ++ vs) = cover (us ++ x :: vs) \ span x := by
  ext p
  have hnot := h.notMem_span (p := p)
  simp only [cover_append, cover_cons, Finset.mem_union, Finset.mem_sdiff] at hnot ⊢
  tauto

/-- The first `n` numbers of an extent taken out. -/
theorem trim {a m n : ℕ} (h : Gapped (us ++ (a, m) :: vs)) (hnm : n < m) :
    Gapped (us ++ (a + n, m - n) :: vs) := by
  have hlow := h.low
  have hhigh := h.high
  refine h.left.insert (h.remove.right) (Nat.sub_pos_of_lt hnm) ?_ ?_
  · intro u hu
    exact lt_of_lt_of_le (hlow u hu) (Nat.le_add_right a n)
  · intro v hv
    have hlt := hhigh v hv
    simp only at hlt ⊢
    omega

theorem cover_trim {a m n : ℕ} (h : Gapped (us ++ (a, m) :: vs)) (hnm : n < m) :
    cover (us ++ (a + n, m - n) :: vs) = cover (us ++ (a, m) :: vs) \ span (a, n) := by
  have hsplit : span (a, m) = span (a, n) ∪ span (a + n, m - n) := by
    rw [span_join, Nat.add_sub_cancel' hnm.le]
  ext p
  have hnot := h.notMem_span (p := p)
  have hpart : p ∈ span (a + n, m - n) → p ∉ span (a, n) := by
    rw [mem_span, mem_span]
    omega
  rw [hsplit] at hnot
  simp only [cover_append, cover_cons, hsplit, Finset.mem_union, Finset.mem_sdiff] at hnot hpart ⊢
  tauto

/-- The size of the covered set. -/
theorem card_cover (h : Gapped xs) : (cover xs).card = (xs.map Prod.snd).sum := by
  induction xs with
  | nil => rfl
  | cons x xs ih =>
    have hdisj : Disjoint (span x) (cover xs) := by
      rw [Finset.disjoint_right]
      intro p hp
      have hcons : Gapped ([] ++ x :: xs) := h
      exact hcons.notMem_span hp
    rw [cover_cons, Finset.card_union_of_disjoint hdisj, card_span,
      ih h.tail, List.map_cons, List.sum_cons]

/-- An interval inside the covered set lies inside one extent. -/
theorem exists_span (h : Gapped xs) {a n : ℕ} (hn : 0 < n) (hsub : span (a, n) ⊆ cover xs) :
    ∃ x ∈ xs, span (a, n) ⊆ span x := by
  obtain ⟨x, hx, hax⟩ := mem_cover.mp (hsub (start_mem_span (x := (a, n)) hn))
  refine ⟨x, hx, ?_⟩
  rw [mem_span] at hax
  -- the first number behind `x` is not covered, so the interval ends before it
  have hend : x.1 + x.2 ∉ cover xs := by
    intro hmem
    obtain ⟨us, vs, rfl⟩ := List.append_of_mem hx
    obtain ⟨y, hy, hmem⟩ := mem_cover.mp hmem
    rw [mem_span] at hmem
    rcases List.mem_append.mp hy with hy | hy
    · have hlt := h.low y hy
      omega
    · rcases List.mem_cons.mp hy with rfl | hy
      · omega
      · have hlt := h.high y hy
        omega
  have hle : a + n ≤ x.1 + x.2 := by
    by_contra hlt
    refine hend (hsub (mem_span.mpr ?_))
    simp only at hax ⊢
    omega
  intro p hp
  rw [mem_span] at hp ⊢
  simp only at hax hp
  omega

/-- A number that is no start splits the list in what lies below and what lies above. -/
theorem exists_split (h : Gapped xs) {b : ℕ} (hb : ∀ x ∈ xs, x.1 ≠ b) :
    ∃ us vs, xs = us ++ vs ∧ (∀ u ∈ us, u.1 < b) ∧ ∀ v ∈ vs, b < v.1 := by
  induction xs with
  | nil => exact ⟨[], [], rfl, fun _ h ↦ absurd h List.not_mem_nil, fun _ h ↦
      absurd h List.not_mem_nil⟩
  | cons x xs ih =>
    have hhigh := (List.pairwise_cons.mp h.gap).1
    rcases lt_or_gt_of_ne (hb x List.mem_cons_self) with hlt | hgt
    · obtain ⟨us, vs, hxs, hu, hv⟩ := ih h.tail fun y hy ↦
        hb y (List.mem_cons_of_mem x hy)
      refine ⟨x :: us, vs, by rw [hxs, List.cons_append], ?_, hv⟩
      intro u hmem
      rcases List.mem_cons.mp hmem with rfl | hmem
      · exact hlt
      · exact hu u hmem
    · refine ⟨[], x :: xs, rfl, fun _ h ↦ absurd h List.not_mem_nil, ?_⟩
      intro v hmem
      rcases List.mem_cons.mp hmem with rfl | hmem
      · exact hgt
      · have hlt := hhigh v hmem
        omega

end Gapped

end Extents
