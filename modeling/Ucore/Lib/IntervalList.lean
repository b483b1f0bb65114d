import Mathlib.Data.List.Pairwise
import Mathlib.Data.List.TakeWhile
import Mathlib.Order.Basic
import Mathlib.Tactic

/-!
# Sorted lists of disjoint intervals

A list whose members stand for half-open intervals, in order and without overlap. At most one of
them holds a given point, and a new one is spliced in behind those that do not begin after it: it
overlaps none of the list exactly when it does not overlap its two neighbours there.
-/

namespace IntervalList

variable {α β : Type*} [LinearOrder β] {lo hi : α → β} {l : List α} {a b : α} {x : β}

/-- The members of `l` are intervals, none of them empty, and each ends before the next begins. -/
structure Separate (lo hi : α → β) (l : List α) : Prop where
  nonempty : ∀ a ∈ l, lo a < hi a
  sorted : l.Pairwise fun a b ↦ hi a ≤ lo b

namespace Separate

theorem nil : Separate lo hi [] := ⟨fun _ h ↦ absurd h List.not_mem_nil, List.Pairwise.nil⟩

/-- The starts increase. -/
theorem lo_lt (h : Separate lo hi l) : l.Pairwise fun a b ↦ lo a < lo b :=
  h.sorted.imp_of_mem fun ha _ hab ↦ (h.nonempty _ ha).trans_le hab

/-- Two members overlap only if they are the same. -/
theorem disjoint (h : Separate lo hi l) (ha : a ∈ l) (hb : b ∈ l) (hne : a ≠ b) :
    hi a ≤ lo b ∨ hi b ≤ lo a := by
  have hor : l.Pairwise fun a b ↦ hi a ≤ lo b ∨ hi b ≤ lo a := h.sorted.imp .inl
  have : Std.Symm fun a b ↦ hi a ≤ lo b ∨ hi b ≤ lo a := ⟨fun _ _ ↦ Or.symm⟩
  exact hor.forall ha hb hne

/-- At most one member holds a point. -/
theorem eq_of_mem (h : Separate lo hi l) (ha : a ∈ l) (hb : b ∈ l) (hxa : lo a ≤ x ∧ x < hi a)
    (hxb : lo b ≤ x ∧ x < hi b) : a = b := by
  by_contra hne
  rcases h.disjoint ha hb hne with hle | hle
  · exact absurd (hle.trans hxb.1) hxa.2.not_ge
  · exact absurd (hle.trans hxa.1) hxb.2.not_ge

end Separate

/-! ## Splicing -/

/-- The members that do not begin after `x`. -/
def upTo (lo : α → β) (x : β) (l : List α) : List α := l.takeWhile fun a ↦ lo a ≤ x

/-- The members from the first one on that begins after `x`. -/
def past (lo : α → β) (x : β) (l : List α) : List α := l.dropWhile fun a ↦ lo a ≤ x

theorem upTo_append_past (lo : α → β) (x : β) (l : List α) : upTo lo x l ++ past lo x l = l :=
  List.takeWhile_append_dropWhile

theorem lo_le_of_mem_upTo (h : a ∈ upTo lo x l) : lo a ≤ x := by
  have hmem := List.mem_takeWhile_imp h
  exact of_decide_eq_true hmem

/-- Every member of the second part begins after `x`, not only the first. -/
theorem Separate.lt_lo_of_mem_past (h : Separate lo hi l) (ha : a ∈ past lo x l) : x < lo a := by
  have hsub : (past lo x l).Sublist l := List.dropWhile_sublist _
  have hsorted := h.lo_lt.sublist hsub
  cases hp : past lo x l with
  | nil =>
    rw [hp] at ha
    cases ha
  | cons c rest =>
    have hc : x < lo c := by
      have hhead := List.head?_dropWhile_not (fun a ↦ decide (lo a ≤ x)) l
      rw [← past, hp] at hhead
      exact not_le.mp (of_decide_eq_false (by simpa using hhead))
    rw [hp] at ha hsorted
    rcases List.mem_cons.mp ha with rfl | ha
    · exact hc
    · exact hc.trans ((List.pairwise_cons.mp hsorted).1 a ha)

/-- `a` overlaps neither of its neighbours when it is spliced in. -/
structure Fits (lo hi : α → β) (a : α) (l : List α) : Prop where
  nonempty : lo a < hi a
  left : ∀ b ∈ (upTo lo (lo a) l).getLast?, hi b ≤ lo a
  right : ∀ b ∈ (past lo (lo a) l).head?, hi a ≤ lo b

/-- Then it overlaps no member. -/
theorem Fits.left_all (hf : Fits lo hi a l) (h : Separate lo hi l) (hb : b ∈ upTo lo (lo a) l) :
    hi b ≤ lo a := by
  have hsub : (upTo lo (lo a) l).Sublist l := List.takeWhile_sublist _
  rcases List.eq_nil_or_concat (upTo lo (lo a) l) with hnil | ⟨init, c, hc⟩
  · rw [hnil] at hb
    cases hb
  rw [List.concat_eq_append] at hc
  have hlast : hi c ≤ lo a := hf.left c (by rw [hc, List.getLast?_concat]; rfl)
  have hsorted := h.sorted.sublist hsub
  rw [hc] at hb hsorted hsub
  rcases List.mem_append.mp hb with hb | hb
  · have hcl : lo c < hi c := h.nonempty c (hsub.subset (by simp))
    have hbc := (List.pairwise_append.mp hsorted).2.2 b hb c (by simp)
    exact hbc.trans (hcl.le.trans hlast)
  · rw [List.mem_singleton.mp hb]
    exact hlast

theorem Fits.right_all (hf : Fits lo hi a l) (h : Separate lo hi l) (hb : b ∈ past lo (lo a) l) :
    hi a ≤ lo b := by
  have hsub : (past lo (lo a) l).Sublist l := List.dropWhile_sublist _
  have hsorted := h.lo_lt.sublist hsub
  cases hp : past lo (lo a) l with
  | nil =>
    rw [hp] at hb
    cases hb
  | cons c rest =>
    have hhead : hi a ≤ lo c := hf.right c (by rw [hp]; rfl)
    rw [hp] at hb hsorted
    rcases List.mem_cons.mp hb with rfl | hb
    · exact hhead
    · exact hhead.trans ((List.pairwise_cons.mp hsorted).1 b hb).le

theorem Fits.apart (hf : Fits lo hi a l) (h : Separate lo hi l) (hb : b ∈ l) :
    hi b ≤ lo a ∨ hi a ≤ lo b := by
  rw [← upTo_append_past lo (lo a) l] at hb
  rcases List.mem_append.mp hb with hb | hb
  · exact .inl (hf.left_all h hb)
  · exact .inr (hf.right_all h hb)

/-- An interval that overlaps no member fits. -/
theorem Separate.fits (h : Separate lo hi l) (ha : lo a < hi a)
    (hdisj : ∀ b ∈ l, hi b ≤ lo a ∨ hi a ≤ lo b) : Fits lo hi a l where
  nonempty := ha
  left b hb := by
    have hmem : b ∈ upTo lo (lo a) l := List.mem_of_getLast? hb
    refine (hdisj b (List.takeWhile_subset _ hmem)).resolve_right fun hle ↦ ?_
    exact absurd (hle.trans (lo_le_of_mem_upTo hmem)) ha.not_ge
  right b hb := by
    have hmem : b ∈ past lo (lo a) l := List.mem_of_head? hb
    refine (hdisj b ((List.dropWhile_sublist _).subset hmem)).resolve_left fun hle ↦ ?_
    have hlo := h.lt_lo_of_mem_past hmem
    exact absurd (hlo.trans ((h.nonempty b ((List.dropWhile_sublist _).subset hmem)).trans_le hle))
      (lt_irrefl _)

theorem mem_splice {c : α} :
    c ∈ upTo lo x l ++ a :: past lo x l ↔ c = a ∨ c ∈ l := by
  conv_rhs => rw [← upTo_append_past lo x l]
  simp only [List.mem_append, List.mem_cons]
  tauto

/-- The list stays in order. -/
theorem Separate.splice (h : Separate lo hi l) (hf : Fits lo hi a l) :
    Separate lo hi (upTo lo (lo a) l ++ a :: past lo (lo a) l) where
  nonempty c hc := by
    rcases mem_splice.mp hc with rfl | hc
    · exact hf.nonempty
    · exact h.nonempty c hc
  sorted := by
    have hl := h.sorted
    rw [← upTo_append_past lo (lo a) l, List.pairwise_append] at hl
    rw [List.pairwise_append, List.pairwise_cons]
    refine ⟨hl.1, ⟨fun c hc ↦ hf.right_all h hc, hl.2.1⟩, fun c hc d hd ↦ ?_⟩
    rcases List.mem_cons.mp hd with rfl | hd
    · exact hf.left_all h hc
    · exact hl.2.2 c hc d hd

theorem length_splice (lo : α → β) (x : β) (a : α) (l : List α) :
    (upTo lo x l ++ a :: past lo x l).length = l.length + 1 := by
  have hlen := congrArg List.length (upTo_append_past lo x l)
  rw [List.length_append] at hlen
  rw [List.length_append, List.length_cons]
  omega

end IntervalList
