import Mathlib.Tactic

/-!
# Circular doubly linked lists

The links of a circular list are two maps on nodes. A ring through a node `h` is a list of further
nodes, all different, such that following `next` from `h` visits them in order and comes back, and
`prev` undoes each of these moves. A ring has no distinguished node: it can be rotated to start at
any of its members, so an insertion or a removal is only studied next to the node it starts at.
-/

/-- The links of circular lists over nodes in `α`. -/
structure Links (α : Type*) where
  next : α → α
  prev : α → α

namespace Links

variable {α : Type*}

/-! ## Chains -/

/-- The links lead from `a` through `xs` to `b`, and back. -/
def Chain (L : Links α) : α → List α → α → Prop
  | a, [], b => L.next a = b ∧ L.prev b = a
  | a, x :: xs, b => L.next a = x ∧ L.prev x = a ∧ L.Chain x xs b

@[simp] theorem chain_nil {L : Links α} {a b : α} :
    L.Chain a [] b ↔ L.next a = b ∧ L.prev b = a := Iff.rfl

@[simp] theorem chain_cons {L : Links α} {a x b : α} {xs : List α} :
    L.Chain a (x :: xs) b ↔ L.next a = x ∧ L.prev x = a ∧ L.Chain x xs b := Iff.rfl

theorem chain_append {L : Links α} {a x b : α} {xs ys : List α} :
    L.Chain a (xs ++ x :: ys) b ↔ L.Chain a xs x ∧ L.Chain x ys b := by
  induction xs generalizing a with
  | nil => simp [and_assoc]
  | cons y xs ih => simp [ih, and_assoc]

theorem Chain.next_eq {L : Links α} {a b : α} {xs : List α} (h : L.Chain a xs b) :
    L.next a = xs.headD b := by
  cases xs with
  | nil => exact h.1
  | cons x xs => exact h.1

theorem Chain.prev_eq {L : Links α} {a b : α} {xs : List α} (h : L.Chain a xs b) :
    L.prev b = xs.getLastD a := by
  induction xs generalizing a with
  | nil => exact h.2
  | cons x xs ih =>
    rw [ih h.2.2, List.getLastD_cons]

/-- A chain only depends on the links along it. -/
theorem Chain.congr {L L' : Links α} {a b : α} {xs : List α} (h : L.Chain a xs b)
    (hnext : ∀ x ∈ a :: xs, L'.next x = L.next x)
    (hprev : ∀ x ∈ xs ++ [b], L'.prev x = L.prev x) : L'.Chain a xs b := by
  induction xs generalizing a with
  | nil =>
    refine ⟨?_, ?_⟩
    · rw [hnext a List.mem_cons_self, h.1]
    · rw [hprev b (List.mem_singleton_self b), h.2]
  | cons x xs ih =>
    refine ⟨?_, ?_, ih h.2.2 ?_ ?_⟩
    · rw [hnext a List.mem_cons_self, h.1]
    · rw [hprev x List.mem_cons_self, h.2.1]
    · intro y hy
      exact hnext y (List.mem_cons_of_mem a hy)
    · intro y hy
      exact hprev y (List.mem_cons_of_mem x hy)

/-! ## Rings -/

/-- The ring of `h`: the nodes `xs`, in order, and `h` itself. -/
structure Ring (L : Links α) (h : α) (xs : List α) : Prop where
  nodup : (h :: xs).Nodup
  chain : L.Chain h xs h

namespace Ring

variable {L : Links α} {h p : α} {xs ys zs : List α}

/-- A ring may start at any of its nodes. -/
theorem rotate (hr : L.Ring h (xs ++ p :: ys)) : L.Ring p (ys ++ h :: xs) where
  nodup := by
    have hperm : (p :: (ys ++ h :: xs)).Perm (h :: (xs ++ p :: ys)) :=
      @List.perm_append_comm _ (p :: ys) (h :: xs)
    exact hperm.nodup_iff.mpr hr.nodup
  chain := by
    have hchain := chain_append.mp hr.chain
    exact chain_append.mpr ⟨hchain.2, hchain.1⟩

theorem next_head (hr : L.Ring h xs) : L.next h = xs.headD h := hr.chain.next_eq

theorem prev_head (hr : L.Ring h xs) : L.prev h = xs.getLastD h := hr.chain.prev_eq

theorem next_mem (hr : L.Ring h (xs ++ p :: ys)) : L.next p = ys.headD h := by
  rw [hr.rotate.next_head]
  cases ys <;> rfl

theorem prev_mem (hr : L.Ring h (xs ++ p :: ys)) : L.prev p = xs.getLastD h := by
  rw [hr.rotate.prev_head]
  rcases List.eq_nil_or_concat xs with rfl | ⟨zs, q, rfl⟩
  · simp [List.getLastD_eq_getLast?]
  · rw [List.concat_eq_append, List.getLastD_concat, ← List.cons_append, ← List.append_assoc,
      List.getLastD_concat]

end Ring

variable [DecidableEq α]

/-! ## Insertion and removal -/

/-- Put `e` between `p` and `n`. -/
def link (L : Links α) (e p n : α) : Links α where
  next := Function.update (Function.update L.next p e) e n
  prev := Function.update (Function.update L.prev n e) e p

/-- Make `p` and `n` neighbours. -/
def bridge (L : Links α) (p n : α) : Links α where
  next := Function.update L.next p n
  prev := Function.update L.prev n p

namespace Ring

variable {L : Links α} {h e p : α} {xs ys zs : List α}

theorem link_head (hr : L.Ring h xs) (he : e ∉ h :: xs) :
    (L.link e h (L.next h)).Ring h (e :: xs) where
  nodup := by
    have hperm : (h :: e :: xs).Perm (e :: h :: xs) := List.Perm.swap e h xs
    exact hperm.nodup_iff.mpr (List.nodup_cons.mpr ⟨he, hr.nodup⟩)
  chain := by
    have hne : h ≠ e := fun heq ↦ he (heq ▸ List.mem_cons_self)
    rw [chain_cons]
    refine ⟨?_, ?_, ?_⟩
    · simp [link, hne]
    · simp [link]
    cases xs with
    | nil =>
      have hself : L.next h = h := hr.chain.1
      simp [link, hself, hne]
    | cons x xs =>
      have hx : L.next h = x := hr.chain.1
      have hxe : x ≠ e := fun heq ↦ he (heq ▸ List.mem_cons_of_mem h List.mem_cons_self)
      have hnodup := hr.nodup
      rw [List.nodup_cons, List.nodup_cons] at hnodup
      rw [hx, chain_cons]
      refine ⟨by simp [link], by simp [link, hxe], hr.chain.2.2.congr ?_ ?_⟩
      · intro y hy
        have hyh : y ≠ h := fun heq ↦ hnodup.1 (heq ▸ hy)
        have hye : y ≠ e := fun heq ↦ he (heq ▸ List.mem_cons_of_mem h hy)
        simp [link, hyh, hye]
      · intro y hy
        have hyx : y ≠ x := by
          rintro rfl
          rcases List.mem_append.mp hy with hy | hy
          · exact hnodup.2.1 hy
          · exact hnodup.1 (List.mem_singleton.mp hy ▸ List.mem_cons_self)
        have hye : y ≠ e := by
          rintro rfl
          rcases List.mem_append.mp hy with hy | hy
          · exact he (List.mem_cons_of_mem h (List.mem_cons_of_mem x hy))
          · exact hne (List.mem_singleton.mp hy).symm
        simp [link, hyx, hye]

theorem bridge_head (hr : L.Ring h (e :: xs)) :
    (L.bridge h (L.next e)).Ring h xs where
  nodup := by
    have hnodup := hr.nodup
    rw [List.nodup_cons, List.nodup_cons] at hnodup
    exact List.nodup_cons.mpr ⟨fun hh ↦ hnodup.1 (List.mem_cons_of_mem e hh), hnodup.2.2⟩
  chain := by
    have hnodup := hr.nodup
    rw [List.nodup_cons, List.nodup_cons] at hnodup
    have htail := hr.chain.2.2
    cases xs with
    | nil =>
      have hself : L.next e = h := htail.1
      simp [bridge, hself]
    | cons x xs =>
      have hx : L.next e = x := htail.1
      rw [hx, chain_cons]
      refine ⟨by simp [bridge], by simp [bridge], htail.2.2.congr ?_ ?_⟩
      · intro y hy
        have hyh : y ≠ h := fun heq ↦ hnodup.1 (heq ▸ List.mem_cons_of_mem e hy)
        simp [bridge, hyh]
      · intro y hy
        have hyx : y ≠ x := by
          rintro rfl
          rcases List.mem_append.mp hy with hy | hy
          · exact (List.nodup_cons.mp hnodup.2.2).1 hy
          · exact hnodup.1
              (List.mem_singleton.mp hy ▸ List.mem_cons_of_mem e List.mem_cons_self)
        simp [bridge, hyx]

/-- A node put behind the last node of `xs`, or behind `h` when there is none. -/
theorem link_after (hr : L.Ring h (xs ++ ys)) (he : e ∉ h :: (xs ++ ys)) :
    (L.link e (xs.getLastD h) (L.next (xs.getLastD h))).Ring h (xs ++ e :: ys) := by
  rcases List.eq_nil_or_concat xs with rfl | ⟨zs, p, rfl⟩
  · exact hr.link_head he
  · rw [List.concat_eq_append] at *
    have hrot : L.Ring p (ys ++ h :: zs) := by
      rw [List.append_assoc] at hr
      exact hr.rotate
    have hmem : e ∉ p :: (ys ++ h :: zs) := by
      intro hin
      apply he
      simp only [List.mem_cons, List.mem_append, List.not_mem_nil, or_false] at hin ⊢
      tauto
    rw [List.getLastD_concat, List.append_assoc]
    have hlinked := hrot.link_head hmem
    rw [← List.cons_append] at hlinked
    exact hlinked.rotate

/-- A node put in front of the first node of `ys`, or of `h` when there is none. -/
theorem link_before (hr : L.Ring h (xs ++ ys)) (he : e ∉ h :: (xs ++ ys)) :
    (L.link e (L.prev (ys.headD h)) (ys.headD h)).Ring h (xs ++ e :: ys) := by
  have hprev : L.prev (ys.headD h) = xs.getLastD h := by
    cases ys with
    | nil => simpa using hr.prev_head
    | cons y ys => exact hr.prev_mem
  have hnext : L.next (xs.getLastD h) = ys.headD h := by
    rcases List.eq_nil_or_concat xs with rfl | ⟨zs, p, rfl⟩
    · exact hr.next_head
    · rw [List.concat_eq_append, List.append_assoc] at hr
      rw [List.concat_eq_append, List.getLastD_concat]
      exact hr.next_mem
  rw [hprev]
  have hlinked := hr.link_after he
  rwa [hnext] at hlinked

/-- A node taken out. -/
theorem bridge_mem (hr : L.Ring h (xs ++ e :: ys)) :
    (L.bridge (L.prev e) (L.next e)).Ring h (xs ++ ys) := by
  rw [hr.prev_mem]
  rcases List.eq_nil_or_concat xs with rfl | ⟨zs, p, rfl⟩
  · exact hr.bridge_head
  · rw [List.concat_eq_append] at *
    have hrot : L.Ring p (e :: (ys ++ h :: zs)) := by
      rw [List.append_assoc, List.singleton_append] at hr
      exact hr.rotate
    rw [List.getLastD_concat, List.append_assoc, List.singleton_append]
    exact hrot.bridge_head.rotate

end Ring

end Links
